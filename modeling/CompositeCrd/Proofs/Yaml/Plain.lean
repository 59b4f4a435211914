import CompositeCrd.Proofs.Yaml.Gap
import CompositeCrd.Proofs.Yaml.Passable

/-!
# Written plain texts

A plain scalar is read part by part, with spaces between the parts, up to a mark that ends it.
A text that is written plain has no such mark inside and does not start like one
(`PlainRest`, `PlainWhole`), so that it is read up to the end of its line (`readPlain_rest`).
-/

namespace CompositeCrd.Yaml

open Input

variable {cs rest : List Char} {b : Bool} {c : Char} {index line column indent fuel : Nat}

/-- The rest of a plain text: all of it is on one line, no mark stands in it, and it does not end
in a space or like a key. -/
structure PlainRest (cs : List Char) : Prop where
  isInline : ∀ c ∈ cs, isInline c = true
  colon : cs.IsChain fun c d => c = ':' → d ≠ ' '
  number : cs.IsChain fun c d => c = ' ' → d ≠ '#'
  last : ∀ c ∈ cs.getLast?, c ≠ ' ' ∧ c ≠ ':'

/-- The rest of a plain text is one. -/
theorem PlainRest.behind (front : List Char) (h : PlainRest (front ++ cs)) : PlainRest cs where
  isInline c hc := h.isInline c (List.mem_append_right _ hc)
  colon := h.colon.right_of_append
  number := h.number.right_of_append
  last c hc := h.last c (List.mem_getLast?_append_of_mem_getLast? hc)

/-- What stands in front of a space does not end like a key. -/
theorem PlainRest.front {more : List Char} (h : PlainRest (cs ++ more))
    (hcs : ∀ c ∈ cs, c ≠ ' ') (hmore : ∀ c ∈ more.head?, c = ' ') : PlainRest cs where
  isInline c hc := h.isInline c (List.mem_append_left _ hc)
  colon := h.colon.left_of_append
  number := h.number.left_of_append
  last c hc := by
    refine ⟨hcs c (List.mem_of_getLast? hc), ?_⟩
    rintro rfl
    cases more with
    | nil => exact (h.last ':' (by rwa [List.append_nil])).2 rfl
    | cons d more =>
      exact (List.isChain_append.mp h.colon).2.2 ':' hc d rfl rfl (hmore d rfl)

/-- Behind spaces there is something else, which is no comment. -/
theorem PlainRest.exists_cons {front blanks : List Char}
    (h : PlainRest (front ++ ' ' :: blanks ++ cs)) (hblanks : ∀ c ∈ ' ' :: blanks, c = ' ') :
    ∃ d cs', cs = d :: cs' ∧ d ≠ '#' := by
  have hlast : ' ' ∈ (front ++ ' ' :: blanks).getLast? := by
    rw [List.getLast?_append_of_ne_nil _ (by simp), getLast?_spaces hblanks]
    rfl
  cases cs with
  | nil => exact absurd rfl (h.last ' ' (by rwa [List.append_nil])).1
  | cons d cs => exact ⟨d, cs, rfl, (List.isChain_append.mp h.number).2.2 ' ' hlast d rfl rfl⟩

/-- A plain text, which does not start like a mark either. -/
structure PlainWhole (cs : List Char) : Prop extends PlainRest cs where
  ne_nil : cs ≠ []
  head : ∀ c ∈ cs.head?, c ≠ ' '
  mark : Style.startsLikeMark cs = false

/-- What is written plain can stand plain: the choice of the style has looked at all of it. -/
theorem plainWhole_of_choose (h : Style.choose cs = .plain) : PlainWhole cs := by
  have hadmits := of_choose_plain h
  have hne : cs ≠ [] := by
    rintro rfl
    exact absurd h (by decide)
  simp only [Style.admitsPlain, Style.containsMark, Bool.and_eq_true, Bool.not_eq_true',
    Bool.or_eq_false_iff, Bool.and_eq_false_iff, decide_eq_false_iff_not] at hadmits
  obtain ⟨⟨⟨⟨⟨hescapes, hline⟩, hhead⟩, hlast⟩, hmark⟩, ⟨hend, hcolon⟩, hnumber⟩ := hadmits
  -- Nothing has to be escaped, and there is one line.
  have hliterate := literate_iff.mp hescapes
  have hinline : ∀ c ∈ cs, isInline c = true := fun c hc => by
    rw [isInline, hliterate.printable c hc, isBreak_of_admitsPlain (of_choose_plain h) c hc]
    rfl
  refine { isInline := hinline, colon := ?_, number := ?_, last := ?_, ne_nil := hne,
           head := ?_, mark := hmark }
  · -- No colon stands before a blank, and no number sign behind one.
    refine (hasPair_eq_false_iff.mp hcolon).imp fun c d hd hc => ?_
    rintro rfl
    exact absurd (hd (beq_iff_eq.mpr hc)) (by decide)
  · refine (hasPair_eq_false_iff.mp hnumber).imp fun c d hd hc => ?_
    rintro rfl
    exact absurd (hd (by rw [hc]; rfl)) (by decide)
  · intro c hc
    have hends : ∀ p, Style.endsWith p cs = p c := fun p => by
      rw [Style.endsWith, Option.mem_def.mp hc, Option.any_some]
    rw [hends] at hlast hend
    refine ⟨beq_eq_false_iff_ne.mp hlast, ?_⟩
    rintro rfl
    -- A colon alone is a mark, and behind something else it makes a key.
    rcases cs with _ | ⟨d, _ | ⟨e, cs⟩⟩
    · exact absurd rfl hne
    · obtain rfl := Option.some.inj hc
      exact absurd hmark (by decide)
    · simp at hend
  · intro c hc
    rw [Style.startsWith, Option.mem_def.mp hc, Option.any_some] at hhead
    exact beq_eq_false_iff_ne.mp hhead

/-- A part of a plain text ends in front of this. -/
def Halts (rest : List Char) : Prop :=
  ∀ index line column, plainPart false (locate index line column rest)
    = some ([], locate index line column rest)

/-- A plain part halts at white space. -/
theorem halts_space (c : Char) (hc : isPrintable c = true) (hspace : isSpace c = true)
    (rest : List Char) : Halts (c :: rest) := by
  intro index line column
  obtain ⟨s, hs⟩ := exists_locate_cons hc index line column rest
  rw [hs, plainPart, if_pos hspace]

/-- A plain part halts at a colon in front of white space. -/
theorem halts_colon (hc : isPrintable c = true) (hspace : isSpace c = true) (rest : List Char) :
    Halts (':' :: c :: rest) := by
  intro index line column
  have hmark : isSpace ':' = false := rfl
  rw [locate_cons (by decide), plainPart, if_neg (by simp [hmark]), if_neg (by simp), if_pos]
  simp [atSpace_locate hc, hspace]

/-- A part without spaces is read up to where it ends. -/
theorem plainPart_written (index line column : Nat) (hcs : PlainRest cs)
    (hspace : ∀ c ∈ cs, c ≠ ' ') (hrest : Halts rest) :
    plainPart false (locate index line column (cs ++ rest))
      = some (cs, locate (index + cs.length) line (column + cs.length) rest) := by
  induction cs generalizing index column with
  | nil => exact hrest index line column
  | cons c cs ih =>
    have hinline := hcs.isInline c List.mem_cons_self
    have hc : isSpace c = false := isSpace_of_isInline hinline (hspace c List.mem_cons_self)
    have htail := ih (index + 1) (column + 1) (hcs.behind [c])
      fun d hd => hspace d (List.mem_cons_of_mem _ hd)
    -- A colon is no end here: a character that is no blank follows.
    have hcolon : ¬(c = ':'
        ∧ atSpace (locate (index + 1) line (column + 1) (cs ++ rest)) = true) := by
      rintro ⟨rfl, hat⟩
      cases cs with
      | nil => exact (hcs.last ':' rfl).2 rfl
      | cons d cs =>
        have hd := hcs.isInline d (by simp)
        rw [List.cons_append, atSpace_locate (isPrintable_of_isInline hd),
          isSpace_of_isInline hd (hspace d (by simp))] at hat
        exact absurd hat (by simp)
    rw [List.cons_append, locate_cons (isBreak_of_isInline hinline), plainPart,
      if_neg (by simp [hc]), if_neg (by simp), if_neg (by simpa using hcolon), htail,
      List.length_cons]
    simp [prepend, Nat.add_assoc, Nat.add_comm 1]

/-- Where a part of a plain text is next, there is neither a comment nor the mark of a document. -/
theorem goesOn_locate (index line : Nat) (hcolumn : 0 < column) (hcs : PlainRest cs)
    (hne : cs ≠ []) (hhead : ∀ c ∈ cs.head?, c ≠ '#') (rest : List Char) :
    (atDocumentMark (locate index line column (cs ++ rest))
      || nextIs (· == '#') (locate index line column (cs ++ rest))) = false := by
  obtain ⟨c, cs, rfl⟩ := List.exists_cons_of_ne_nil hne
  have hc : c ≠ '#' := hhead c rfl
  rw [List.cons_append, locate_cons (isBreak_of_isInline (hcs.isInline c List.mem_cons_self)),
    atDocumentMark_of_column hcolumn.ne', nextIs]
  simpa using hc

/-- Behind a part and the gap that follows it, a plain scalar is at its end or goes on. -/
theorem readPlain_part {s s' s'' : Input} {g g' : Gap} {part : List Char}
    (hgoes : (atDocumentMark s || nextIs (· == '#') s) = false)
    (hpart : plainPart false s = some (part, s')) (hne : part ≠ [])
    (hspace : nextIs isSpace s' = true) (hgap : Gap.read indent false s' = some (g', s'')) :
    readPlain false indent (fuel + 1) g s
      = if s''.head?.all (·.column < indent) then
          some ⟨g.text ++ part, !g'.breaks.isEmpty, s''⟩
        else (readPlain false indent fuel g' s'').map fun more =>
          { more with text := g.text ++ part ++ more.text } := by
  rw [readPlain, hgoes, if_neg (by simp), hpart]
  dsimp only [Option.bind_eq_bind, Option.bind_some]
  rw [if_neg (by simpa using hne), hspace, if_neg (by simp), hgap]
  dsimp only [Option.bind_some]
  rw [Bool.not_false, Bool.true_and]
  cases readPlain false indent fuel g' s'' <;> rfl

/-- The last part of a plain text, up to the next line. -/
theorem readPlain_last {part : List Char} (fuel index line : Nat) (hcolumn : 0 < column)
    (hpart : PlainRest part) (hne : part ≠ []) (hsolid : ∀ c ∈ part, c ≠ ' ')
    (hhead : ∀ c ∈ part.head?, c ≠ '#') (hrest : Stops rest) (g : Gap) :
    readPlain false 1 (fuel + 1) g (locate index line column (part ++ '\n' :: rest))
      = some ⟨g.text ++ part, true, locate (index + part.length + 1) (line + 1) 0 rest⟩ := by
  have hgoes := goesOn_locate index line hcolumn hpart hne hhead ('\n' :: rest)
  have hread := plainPart_written index line column hpart hsolid (halts_space '\n' rfl rfl rest)
  have hfeed : ∀ c ∈ ['\n'], isPrintable c = true ∧ isBreak c = true :=
    List.forall_mem_singleton.mpr ⟨rfl, rfl⟩
  have hgap := gap_breaks 1 (index + part.length) line (column + part.length) (by simp) hfeed
    hrest false 0
  -- Whatever is next is not set in, so the scalar is at its end.
  have hmargin : (locate (index + part.length + 1) (line + 1) 0 rest).head?.all
      (fun x => decide (x.column < 1)) = true := by
    refine (Option.all_eq_true _ _).mpr fun x hx => ?_
    simp [column_locate hx]
  refine (readPlain_part hgoes hread hne ?_ hgap).trans (if_pos hmargin)
  rw [locate_cons_break rfl rfl]
  rfl

/-- A part of a plain text, and the spaces up to the next. -/
theorem readPlain_blanks {part blanks : List Char} (fuel index line : Nat) (hcolumn : 0 < column)
    (hpart : PlainRest part) (hne : part ≠ []) (hsolid : ∀ c ∈ part, c ≠ ' ')
    (hhead : ∀ c ∈ part.head?, c ≠ '#') (hblanks : ∀ c ∈ ' ' :: blanks, c = ' ')
    (hc : isSpace c = false) (rest : List Char) (g : Gap) :
    readPlain false 1 (fuel + 1) g (locate index line column (part ++ ' ' :: blanks ++ c :: rest))
      = (readPlain false 1 fuel { blanks := ' ' :: blanks }
          (locate (index + part.length + (' ' :: blanks).length) line
            (column + part.length + (' ' :: blanks).length) (c :: rest))).map
          fun more => { more with text := g.text ++ part ++ more.text } := by
  have hgoes := goesOn_locate index line hcolumn hpart hne hhead (' ' :: blanks ++ c :: rest)
  have hread := plainPart_written index line column hpart hsolid
    (halts_space ' ' rfl rfl (blanks ++ c :: rest))
  have hblank : ∀ d ∈ ' ' :: blanks, isBlank d = true := by
    intro d hd
    rw [hblanks d hd]
    rfl
  have hstops : Stops (c :: rest) := fun d hd => Option.some.inj hd ▸ hc
  -- The spaces are a gap without a break, so what follows is on the line and inside of the
  -- column.
  have hgap := gap_blanks 1 (index + part.length) line (column + part.length) hblank hstops
  have hspace : nextIs isSpace (locate (index + part.length) line (column + part.length)
      (' ' :: blanks ++ c :: rest)) = true := by
    rw [List.cons_append, locate_cons rfl]
    rfl
  have hinside : ¬(locate (index + part.length + (' ' :: blanks).length) line
      (column + part.length + (' ' :: blanks).length) (c :: rest)).head?.all
      (fun x => decide (x.column < 1)) = true := by
    rw [locate_cons (isBreak_of_not_isSpace hc)]
    simp
  rw [List.append_assoc]
  exact (readPlain_part hgoes hread hne hspace hgap).trans (if_neg hinside)

/-- **A plain text is read as it was**, up to the next line. -/
theorem readPlain_rest (index line : Nat) (hcolumn : 0 < column) (hcs : PlainRest cs)
    (hne : cs ≠ []) (hhead : ∀ c ∈ cs.head?, c ≠ ' ' ∧ c ≠ '#') (hfuel : cs.length < fuel)
    (hrest : Stops rest) (g : Gap) :
    readPlain false 1 fuel g (locate index line column (cs ++ '\n' :: rest))
      = some ⟨g.text ++ cs, true, locate (index + cs.length + 1) (line + 1) 0 rest⟩ := by
  induction fuel generalizing cs index column g with
  | zero => exact absurd hfuel (Nat.not_lt_zero _)
  | succ fuel ih =>
    -- A plain text is read part by part; the spaces between two parts are the gap of the next.
    obtain ⟨part, more, rfl, hsolid, hmore⟩ := exists_run (· != ' ') cs
    simp only [bne_iff_ne, bne_eq_false_iff_eq] at hsolid hmore
    have hpart_ne : part ≠ [] := by
      rintro rfl
      obtain ⟨c, cs, rfl⟩ := List.exists_cons_of_ne_nil hne
      exact (hhead c rfl).1 (hmore c rfl)
    have hpart := hcs.front hsolid hmore
    have hpart_head : ∀ c ∈ part.head?, c ≠ '#' :=
      fun c hc => (hhead c (List.mem_head?_append_of_mem_head? hc)).2
    rcases more with _ | ⟨c, more⟩
    · rw [List.append_nil]
      exact readPlain_last fuel index line hcolumn hpart hpart_ne hsolid hpart_head hrest g
    · -- The text goes on behind the spaces, and so does the reader.
      obtain rfl : c = ' ' := hmore c rfl
      obtain ⟨blanks, more, rfl, hblanks, hmore'⟩ := exists_spaces more
      have hall : ∀ c ∈ ' ' :: blanks, c = ' ' := List.forall_mem_cons.mpr ⟨rfl, hblanks⟩
      rw [← List.cons_append, ← List.append_assoc] at hcs hfuel ⊢
      -- The text does not end in blanks, and no comment begins behind them.
      obtain ⟨d, more, rfl, hnumber⟩ := hcs.exists_cons hall
      have hbehind := hcs.behind (part ++ ' ' :: blanks)
      have hd : d ≠ ' ' := hmore' d rfl
      have hspace := isSpace_of_isInline (hbehind.isInline d List.mem_cons_self) hd
      have hcolumn' : 0 < column + part.length + (' ' :: blanks).length := by omega
      have hnext := ih (index + part.length + (' ' :: blanks).length) hcolumn' hbehind (by simp)
        (fun c hc => Option.some.inj hc ▸ ⟨hd, hnumber⟩)
        (by simp only [List.length_append, List.length_cons] at hfuel ⊢; omega)
        { blanks := ' ' :: blanks }
      rw [List.append_assoc (part ++ ' ' :: blanks), List.cons_append,
        readPlain_blanks fuel index line hcolumn hpart hpart_ne hsolid hpart_head hall hspace]
      rw [List.cons_append] at hnext
      rw [hnext]
      simp [Gap.text, Nat.add_assoc, Nat.add_comm, Nat.add_left_comm]

/-- A text that starts with none of the marks: those that stand for something wherever they are,
and those that do so in front of a space. -/
theorem of_startsLikeMark_eq_false (h : Style.startsLikeMark (c :: cs) = false) :
    c ∉ ['#', ',', '[', ']', '\x7b', '\x7d', '&', '*', '!', '|', '>', '\'', '"', '%', '@', '\x60']
      ∧ (c ∈ ['?', ':', '-'] → ∃ d cs', cs = d :: cs' ∧ isSpace d = false) := by
  unfold Style.startsLikeMark at h
  split at h
  · exact absurd h (by simp)
  · exact absurd h (by simp)
  · next heq => exact absurd heq (by simp)
  · next heq =>
    obtain ⟨rfl, rfl⟩ := List.cons.inj heq
    rw [Bool.or_eq_false_iff, decide_eq_false_iff_not, Bool.and_eq_false_iff,
      decide_eq_false_iff_not] at h
    -- Most marks never begin a text; the soft ones may in front of a character.
    obtain ⟨hmark, hsoft⟩ := h
    refine ⟨hmark, fun hc => ?_⟩
    have hrest := hsoft.resolve_left (not_not_intro hc)
    cases cs with
    | nil => exact absurd hrest (by simp)
    | cons d cs => exact ⟨d, cs, rfl, by simpa [Style.startsWith] using hrest⟩

end CompositeCrd.Yaml
