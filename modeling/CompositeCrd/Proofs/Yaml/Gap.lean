import CompositeCrd.Proofs.Yaml.Margin
import CompositeCrd.Proofs.Yaml.Scalar
import Mathlib.Data.List.Chain

/-!
# Written characters and the gaps between them

What is written consists of printable characters, and of the line breaks only those that stand
for themselves. So the places of written characters are known, each character having its own.

Inside a text, spaces and line breaks are gaps to a reader. A gap of spaces stands for itself
unless a line break follows, and one of line breaks takes the spaces behind it along. The writer
leaves only such gaps in a text as stand for themselves (`Literate`, `gap_blanks`, `gap_breaks`).
-/

namespace CompositeCrd.Yaml

open Input

variable {cs rest : List Char} {b : Bool} {c : Char} {index line column indent fuel : Nat}

/-! ### Characters that are written -/

/-- What is printable is allowed in a stream. -/
theorem isAllowed_of_isPrintable (h : isPrintable c = true) : isAllowed c = true := by
  simp only [isPrintable, Bool.or_eq_true, Bool.and_eq_true, decide_eq_true_eq] at h
  simp only [isAllowed, Bool.or_eq_true, Bool.and_eq_true, decide_eq_true_eq]
  rcases h with ((rfl | h) | h) | h
  · decide
  all_goals omega

/-- No tab and no carriage return is written as it is. -/
theorem ne_of_isPrintable (h : isPrintable c = true) : c ≠ '\t' ∧ c ≠ '\r' ∧ c ≠ '\u0085' := by
  refine ⟨?_, ?_, ?_⟩ <;>
  · rintro rfl
    exact absurd h (by decide)

/-- A printable character is white space only if it is a blank or a break. -/
theorem isSpace_of_isPrintable (h : isPrintable c = true) (hblank : c ≠ ' ')
    (hbreak : isBreak c = false) : isSpace c = false := by
  simp [isSpace, isBlank, hblank, hbreak, (ne_of_isPrintable h).1]

theorem isSpace_of_isInline (h : isInline c = true) (hc : c ≠ ' ') : isSpace c = false :=
  isSpace_of_isPrintable (isPrintable_of_isInline h) hc (isBreak_of_isInline h)

/-- A line break that is written stands for itself. -/
theorem locate_cons_break (hc : isPrintable c = true) (hbreak : isBreak c = true)
    (cs : List Char) : locate index line column (c :: cs)
      = ⟨c, index, line, column⟩ :: locate (index + 1) (line + 1) 0 cs := by
  -- A carriage return would take the line feed behind it along, and is not written.
  obtain ⟨-, hreturn, hnext⟩ := ne_of_isPrintable hc
  rw [locate.eq_def]
  split
  · next heq => exact absurd heq (by simp)
  · next heq => exact absurd (List.cons.inj heq).1 hreturn
  · next c' cs' _ heq =>
    obtain ⟨rfl, rfl⟩ := List.cons.inj heq
    split
    · rfl
    · next hsep =>
      obtain ⟨hline, hparagraph⟩ := not_or.mp hsep
      obtain rfl : c = '\n' := by
        simpa [isBreak, hreturn, hnext, hline, hparagraph] using hbreak
      rfl

/-- Characters are counted from the column that is given. -/
theorem column_locate {x : Located} (hx : x ∈ (locate index line column cs).head?) :
    x.column = column := by
  rw [locate.eq_def] at hx
  split at hx
  · exact absurd hx (by simp)
  · obtain rfl := Option.some.inj hx
    rfl
  · split_ifs at hx <;>
    · obtain rfl := Option.some.inj hx
      rfl

/-- The first character stands at the place that is given. -/
theorem exists_locate_cons (hc : isPrintable c = true) (index line column : Nat)
    (cs : List Char) :
    ∃ s, locate index line column (c :: cs) = ⟨c, index, line, column⟩ :: s := by
  cases hbreak : isBreak c with
  | false => exact ⟨_, locate_cons hbreak cs⟩
  | true => exact ⟨_, locate_cons_break hc hbreak cs⟩

/-- Whether there is white space is decided by the first character. -/
theorem atSpace_locate (hc : isPrintable c = true) (rest : List Char) :
    atSpace (locate index line column (c :: rest)) = isSpace c := by
  obtain ⟨s, hs⟩ := exists_locate_cons hc index line column rest
  rw [hs, atSpace]

/-- How many places there are does not depend on where the first one is. -/
theorem length_locate (index line column : Nat) (cs : List Char) :
    (locate index line column cs).length = (locate 0 0 0 cs).length := by
  -- The places change from step to step, on either side.
  have hplace : ∀ index line column index' line' column',
      (locate index line column cs).length = (locate index' line' column' cs).length := by
    intro index line column
    fun_induction locate index line column cs with
    | case1 => exact fun _ _ _ => rfl
    | case2 index line column cs ih =>
      intro index' line' column'
      rw [locate, List.length_cons, List.length_cons]
      exact congrArg (· + 1) (ih _ _ _)
    | case3 index line column c cs hreturn hsep ih =>
      intro index' line' column'
      rw [locate, if_pos hsep, List.length_cons, List.length_cons]
      · exact congrArg (· + 1) (ih _ _ _)
      · exact hreturn
    | case4 index line column c cs hreturn hsep hbreak ih =>
      intro index' line' column'
      rw [locate, if_neg hsep, if_pos hbreak, List.length_cons, List.length_cons]
      · exact congrArg (· + 1) (ih _ _ _)
      · exact hreturn
    | case5 index line column c cs hreturn hsep hbreak ih =>
      intro index' line' column'
      rw [locate, if_neg hsep, if_neg hbreak, List.length_cons, List.length_cons]
      · exact congrArg (· + 1) (ih _ _ _)
      · exact hreturn
  exact hplace _ _ _ _ _ _

/-- Each character that is written takes a place of its own. -/
theorem length_locate_append (h : ∀ c ∈ cs, isPrintable c = true) (rest : List Char)
    (index' line' column' : Nat) : (locate index line column (cs ++ rest)).length
      = cs.length + (locate index' line' column' rest).length := by
  induction cs generalizing index line column with
  | nil => rw [List.nil_append, length_locate, length_locate index', List.length_nil, Nat.zero_add]
  | cons c cs ih =>
    obtain ⟨hc, hcs⟩ := List.forall_mem_cons.mp h
    rw [List.cons_append, List.length_cons]
    -- A character is one of the input, whether it breaks a line or not.
    cases hbreak : isBreak c with
    | false => rw [locate_cons hbreak, List.length_cons, ih hcs, Nat.add_right_comm]
    | true => rw [locate_cons_break hc hbreak, List.length_cons, ih hcs, Nat.add_right_comm]

/-! ### Texts by their characters -/

/-- That no two neighbours are of two kinds, as a chain. -/
theorem hasPair_eq_false_iff {p q : Char → Bool} : Style.hasPair p q cs = false
    ↔ cs.IsChain fun c d => p c = true → q d = false := by
  induction cs with
  | nil => simp [Style.hasPair]
  | cons c cs ih =>
    cases cs with
    | nil => simp [Style.hasPair]
    | cons d cs =>
      rw [Style.hasPair, Bool.or_eq_false_iff, ih, List.isChain_cons_cons]
      simp

/-- Where nothing is written as nothing, there is no less than before. -/
theorem length_le_flatMap {α β : Type} {as : List α} {f : α → List β} (hf : ∀ a, f a ≠ []) :
    as.length ≤ (as.flatMap f).length := by
  induction as with
  | nil => exact le_rfl
  | cons a as ih =>
    have ha := List.length_pos_iff.mpr (hf a)
    rw [List.flatMap_cons, List.length_append, List.length_cons]
    omega

/-- A text begins with as many characters of a class as there are. -/
theorem exists_run (p : Char → Bool) (cs : List Char) : ∃ front more, cs = front ++ more
    ∧ (∀ c ∈ front, p c = true) ∧ ∀ c ∈ more.head?, p c = false := by
  refine ⟨cs.takeWhile p, cs.dropWhile p, List.takeWhile_append_dropWhile.symm,
    fun c hc => List.mem_takeWhile_imp hc, fun c hc => ?_⟩
  have hhead := List.head?_dropWhile_not p cs
  rw [Option.mem_def.mp hc] at hhead
  exact hhead

theorem exists_spaces (cs : List Char) : ∃ front more, cs = front ++ more
    ∧ (∀ c ∈ front, c = ' ') ∧ ∀ c ∈ more.head?, c ≠ ' ' := by
  simpa using exists_run (· == ' ') cs

/-- What a text must be like for the forms without escapes: no character needs one, and no space
stands in front of a line break. -/
structure Literate (cs : List Char) : Prop where
  printable : ∀ c ∈ cs, isPrintable c = true
  closed : cs.IsChain fun c d => c = ' ' → isBreak d = false

/-- A text needs no escapes when all of it is printable and no blank stands before a break. -/
theorem literate_iff : Style.needsEscapes cs = false ↔ Literate cs := by
  rw [Style.needsEscapes, Bool.or_eq_false_iff, hasPair_eq_false_iff]
  constructor
  · rintro ⟨h, hchain⟩
    exact ⟨by simpa using h, by simpa using hchain⟩
  · rintro ⟨h, hchain⟩
    exact ⟨by simpa using h, by simpa using hchain⟩

/-- A text that needs escapes is written between quotation marks. -/
theorem literate_of_choose (h : Style.choose cs ≠ .double) : Literate cs := by
  refine literate_iff.mp ?_
  cases hescapes : Style.needsEscapes cs with
  | false => rfl
  | true =>
    refine absurd ?_ h
    simp [Style.choose, Style.quoted, Style.admitsLiteral, Style.admitsPlain, Style.admitsSingle,
      hescapes]

theorem Literate.behind (front : List Char) (h : Literate (front ++ cs)) : Literate cs :=
  ⟨fun c hc => h.printable c (List.mem_append_right _ hc), h.closed.right_of_append⟩

theorem getLast?_spaces {front : List Char} (h : ∀ c ∈ ' ' :: front, c = ' ') :
    (' ' :: front).getLast? = some ' ' := by
  rw [List.getLast?_eq_some_getLast (by simp), h _ (List.getLast_mem _)]

/-- Spaces inside a text are in front of something that is no white space. -/
theorem Literate.exists_spaces (h : Literate (' ' :: cs)) : ∃ front more, cs = front ++ more
    ∧ (∀ c ∈ ' ' :: front, c = ' ') ∧ ∀ c ∈ more.head?, isSpace c = false := by
  obtain ⟨front, more, rfl, hfront, hmore⟩ := Yaml.exists_spaces cs
  have hall : ∀ c ∈ ' ' :: front, c = ' ' := List.forall_mem_cons.mpr ⟨rfl, hfront⟩
  refine ⟨front, more, rfl, hall, fun c hc => ?_⟩
  have hprintable := h.printable c
    (List.mem_cons_of_mem _ (List.mem_append_right _ (List.mem_of_mem_head? hc)))
  -- No break follows the last of the blanks.
  rw [← List.cons_append] at h
  exact isSpace_of_isPrintable hprintable (hmore c hc)
    ((List.isChain_append.mp h.closed).2.2 ' ' (getLast?_spaces hall) c hc rfl)

/-! ### Gaps -/

/-- No white space is next. -/
def Stops (rest : List Char) : Prop :=
  ∀ c ∈ rest.head?, isSpace c = false

theorem Stops.head (h : Stops (c :: rest)) : isBlank c = false ∧ isBreak c = false :=
  Bool.or_eq_false_iff.mp (h c rfl)

/-- There is no gap in front of it. -/
theorem gap_of_stops (hrest : Stops rest) (broken : Bool) :
    Gap.read indent broken (locate index line column rest)
      = some ({}, locate index line column rest) := by
  cases rest with
  | nil => rfl
  | cons c rest =>
    obtain ⟨hblank, hbreak⟩ := hrest.head
    rw [locate_cons hbreak, Gap.read, hbreak, hblank]
    rfl

/-- Blanks inside a line are kept. -/
theorem gap_blanks {front : List Char} (indent index line column : Nat)
    (hfront : ∀ c ∈ front, isBlank c = true) (hrest : Stops rest) :
    Gap.read indent false (locate index line column (front ++ rest))
      = some ({ blanks := front },
          locate (index + front.length) line (column + front.length) rest) := by
  induction front generalizing index column with
  | nil => exact gap_of_stops hrest false
  | cons c front ih =>
    obtain ⟨hc, hfront⟩ := List.forall_mem_cons.mp hfront
    -- Neither the blank nor the tab breaks a line.
    have hbreak : isBreak c = false := by
      simp only [isBlank, Bool.or_eq_true, decide_eq_true_eq] at hc
      rcases hc with rfl | rfl <;> decide
    rw [List.cons_append, locate_cons hbreak, Gap.read, hbreak, hc, ih _ _ hfront, List.length_cons]
    simp [Nat.add_assoc, Nat.add_comm 1]

/-- Spaces at the start of a line are dropped. -/
theorem gap_indented (hrest : Stops rest) (n : Nat) :
    Gap.read indent true (locate index line column (spaces n ++ rest))
      = some ({}, locate (index + n) line (column + n) rest) := by
  induction n generalizing index column with
  | zero => exact gap_of_stops hrest true
  | succ n ih =>
    change Gap.read indent true (locate index line column (' ' :: (spaces n ++ rest))) = _
    rw [locate_cons (by decide), Gap.read]
    simp only [show isBreak ' ' = false from rfl, show isBlank ' ' = true from rfl]
    simp [ih, Nat.add_assoc, Nat.add_comm 1]

/-- Line breaks are kept, and the spaces at the start of the next line are dropped. -/
theorem gap_breaks {breaks : List Char} (indent index line column : Nat) (hne : breaks ≠ [])
    (hbreaks : ∀ c ∈ breaks, isPrintable c = true ∧ isBreak c = true) (hrest : Stops rest)
    (broken : Bool) (n : Nat) :
    Gap.read indent broken (locate index line column (breaks ++ (spaces n ++ rest)))
      = some ({ breaks },
          locate (index + breaks.length + n) (line + breaks.length) n rest) := by
  induction breaks generalizing index line column broken with
  | nil => exact absurd rfl hne
  | cons c breaks ih =>
    obtain ⟨⟨hc, hbreak⟩, hbreaks⟩ := List.forall_mem_cons.mp hbreaks
    rw [List.cons_append, locate_cons_break hc hbreak, Gap.read, if_pos hbreak]
    cases breaks with
    | nil =>
      -- Only behind the last line break is there anything to drop.
      rw [List.nil_append, gap_indented hrest]
      simp
    | cons d breaks =>
      rw [ih _ _ _ (by simp) hbreaks]
      simp [Nat.add_comm, Nat.add_left_comm]

/-- Line breaks other than the line feed do not count for a space. -/
theorem gap_text_of_not_mem {breaks : List Char} (h : '\n' ∉ breaks) :
    Gap.text { breaks } = breaks := by
  match breaks, h with
  | [], _ => rfl
  | c :: breaks, h =>
    unfold Gap.text
    split
    · next hnil => exact hnil.symm
    · next hfeed => exact absurd (List.cons.inj hfeed).1.symm (List.ne_of_not_mem_cons h)
    · next hfeed => exact absurd (List.cons.inj hfeed).1.symm (List.ne_of_not_mem_cons h)
    · rfl

end CompositeCrd.Yaml
