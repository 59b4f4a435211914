import CompositeCrd.Proofs.Yaml.Block
import CompositeCrd.Proofs.Yaml.Plain
import CompositeCrd.Proofs.Yaml.Quoted
import CompositeCrd.Proofs.Yaml.Stream

/-!
# The tokens of written settings

Settings are written one behind the other at the left margin, each a word and what it is set to:
a text, a truth value, or a list of texts. Their document is taken apart into tokens here
(`stream?_settings`). Each text becomes one scalar, whatever is in it, by the lemmas on the four
ways to write it. Everything else about a setting is known beforehand.

Reading goes from one place at the margin to the next (`TokenReader.AtMargin`). In between it
passes the mark behind which a text stands (`TokenReader.BehindMark`).
-/

namespace CompositeCrd.Yaml

open Input

variable {cs rest : List Char} {c : Char} {T : List Token} {columns : List Nat}

/-! ### Settings -/

/-- What a word is set to. -/
inductive Setting where
  /-- A text. -/
  | text (s : String)
  /-- A truth value. -/
  | flag (b : Bool)
  /-- A list of texts. -/
  | texts (ss : List String)
deriving DecidableEq

namespace Setting

/-- The JSON value of a setting. -/
def value : Setting → Json.Value
  | .text s => .string s
  | .flag b => .bool b
  | .texts ss => .array (ss.map .string)

end Setting

/-- How readers find a text written. -/
def readStyle (cs : List Char) : ScalarStyle :=
  match Style.choose cs with
  | .plain => .plain
  | .single | .double => .other
  | .literal => .literal

/-- The token of a text. -/
def textToken (cs : List Char) : Token :=
  .scalar (readStyle cs) cs

/-- The word for a truth value. -/
def flagText (b : Bool) : List Char :=
  if b then ['t', 'r', 'u', 'e'] else ['f', 'a', 'l', 's', 'e']

/-- The tokens of an item. -/
def itemTokens (s : String) : List Token :=
  [.hyphen, textToken s.toList]

/-- The words for flags are plain. -/
theorem plainWhole_flagText (b : Bool) : PlainWhole (flagText b) := by
  cases b <;>
  exact { isInline := List.all_eq_true.mp rfl, colon := by decide, number := by decide,
          last := by simp [flagText], ne_nil := by decide, head := by simp [flagText],
          mark := rfl }

/-- The tokens of a setting. -/
def Setting.tokens : Setting → List Token
  | .text s => [textToken s.toList]
  | .flag b => [.scalar .plain (flagText b)]
  | .texts [] => [.openBracket, .closeBracket]
  | .texts (s :: ss) => (s :: ss).flatMap itemTokens

/-- A word that stands in front of a colon as it is. -/
structure Word (cs : List Char) : Prop where
  plain : Style.choose cs = .plain
  fits : Style.fitsKey cs = true
  solid : ∀ c ∈ cs, c ≠ ' '
  head : ∀ c ∈ cs.head?, c ≠ '-' ∧ c ≠ '.'

/-- A word is short enough for a key. -/
theorem Word.length_le (h : Word cs) : cs.length ≤ 128 := by
  have hfits := h.fits
  simp only [Style.fitsKey, Utf8.encode, String.toList_ofList, Bool.and_eq_true,
    decide_eq_true_eq] at hfits
  refine (length_le_flatMap fun c => ?_).trans hfits.2
  unfold Utf8.encodeChar
  dsimp only
  split_ifs <;> simp

/-- A plain text stands where it is seen. -/
theorem PlainWhole.stands (h : PlainWhole (c :: cs)) : TokenReader.Stands c := by
  have hinline := h.isInline c List.mem_cons_self
  refine ⟨isSpace_of_isInline hinline (h.head c rfl), ?_, ?_⟩
  · rintro rfl
    exact (of_startsLikeMark_eq_false h.mark).1 (by simp)
  · rintro rfl
    exact absurd hinline (by decide)

/-- The tokens of a word and its setting. -/
def entryTokens (m : String × Setting) : List Token :=
  .key :: .scalar .plain m.1.toList :: .value :: m.2.tokens

/-- Words and their settings as a JSON value. -/
def settings (ms : List (String × Setting)) : Json.Value :=
  .object (ms.map (Prod.map id Setting.value))

namespace TokenReader

variable {r r₁ r₂ : TokenReader} {x : Located} {s : Input} {P : TokenReader → Prop}

/-! ### Steps -/

/-- The reader in front of the token that begins with `x`, where no key can have begun. -/
abbrev inFront (x : Located) (s : Input) (T : List Token) (columns : List Nat)
    (keyAllowed : Bool) : TokenReader :=
  { input := x :: s, tokens := T, columns, keyAllowed }

/-- One token after another. -/
theorem goes_next {keyAllowed : Bool}
    (hskip : skipSpace r.inFlow false r.keyAllowed r.input = (keyAllowed, x :: s))
    (hexpire : { r with keyAllowed, input := x :: s }.expireAll x = some r₁)
    (hclose : r₁.close (x.column < ·) = r₁) (hnext : r₁.next x s = some r₂)
    (hle : r₂.input.length ≤ s.length) (hP : P r₂) : Goes True r P := by
  refine .inl ⟨1, r₂, hP, fun _ => ?_, fun fuel => ?_⟩
  · -- What was skipped and the character of the token are gone.
    have hskipped := length_skipSpace_le r.inFlow false r.keyAllowed r.input
    rw [hskip, List.length_cons] at hskipped
    omega
  · rw [run, hskip]
    dsimp only
    rw [hexpire]
    dsimp only [Option.bind_eq_bind, Option.bind_some]
    rw [hclose, hnext, Option.bind_some]

/-- Out of the flow there is one place to be given up. -/
theorem expireAll_of_outer {keyAllowed : Bool} (houter : r.outer = [])
    (hexpire : expire x r.candidate = some none) :
    { r with keyAllowed, input := x :: s }.expireAll x
      = some (inFront x s r.tokens r.columns keyAllowed) := by
  unfold expireAll
  rw [hexpire, houter]
  rfl

/-- Nothing that begins at the margin ends where something goes on. -/
theorem close_of_margin (hcolumns : ∀ n ∈ r.columns, n = 0) (column : Nat) :
    r.close (column < ·) = r := by
  unfold close
  split
  · rfl
  · -- No column is to the right of the margin, so nothing is closed.
    have htake : r.columns.takeWhile (column < ·) = [] := by
      cases hr : r.columns with
      | nil => rfl
      | cons n ns =>
        rw [List.takeWhile_cons_of_neg]
        simp [hcolumns n (hr ▸ List.mem_cons_self)]
    have hdrop := List.takeWhile_append_dropWhile (p := (decide <| column < ·)) (l := r.columns)
    rw [htake, List.nil_append] at hdrop
    rw [htake, hdrop]
    rfl

/-- What is noted about a key that may begin with `x`. -/
def noted (x : Located) (T : List Token) (columns : List Nat) (keyAllowed : Bool) :
    Option PossibleKey :=
  if keyAllowed then
    some { required := columns.head? = some x.column, position := T.length, first := x }
  else none

/-- In front of a token its place is noted if a key may begin there. -/
theorem noteCandidate_inFront (x : Located) (s : Input) (T : List Token) (columns : List Nat)
    (keyAllowed : Bool) : (inFront x s T columns keyAllowed).noteCandidate x
      = some { inFront x s T columns keyAllowed with
          candidate := noted x T columns keyAllowed } := by
  cases keyAllowed <;> rfl

/-- Behind the margin no key must begin. -/
theorem noted_inside {k : PossibleKey} {keyAllowed : Bool} (hx : x.column ≠ 0)
    (hk : noted x T [0] keyAllowed = some k) : k.required = false ∧ k.first = x := by
  obtain ⟨-, hk⟩ := Option.ite_none_right_eq_some.mp hk
  obtain rfl := Option.some.inj hk
  exact ⟨decide_eq_false (by simpa using hx.symm), rfl⟩

/-- What is noted stays so on its line. -/
theorem expire_noted {y : Located} {keyAllowed : Bool} (hline : x.line = y.line)
    (hindex : y.index ≤ x.index + 1024) :
    expire y (noted x T columns keyAllowed) = some (noted x T columns keyAllowed) := by
  cases keyAllowed with
  | false => rfl
  | true => exact expire_of_near hline hindex

/-- A plain scalar is read as one token. -/
theorem plain_inFront {keyAllowed : Bool} {scalar : Plain}
    (hread : readPlain false (inFront x s T columns keyAllowed).inside (s.length + 2) {} (x :: s)
      = some scalar) :
    (inFront x s T columns keyAllowed).plain x
      = some { input := scalar.rest, tokens := .scalar .plain scalar.text :: T, columns,
               candidate := noted x T columns keyAllowed, keyAllowed := scalar.brokenBehind } := by
  rw [plain, noteCandidate_inFront]
  exact congrArg (Option.bind · _) hread

/-- A scalar between quotes is read as one token. -/
theorem node_inFront {keyAllowed : Bool} {read : Option (List Char × Input)} {s' : Input}
    (hread : read = some (cs, s')) :
    (inFront x s T columns keyAllowed).node x (.scalar .other) read
      = some { input := s', tokens := .scalar .other cs :: T, columns,
               candidate := noted x T columns keyAllowed, keyAllowed := false } := by
  rw [node, noteCandidate_inFront, hread]
  rfl

/-- A block is read as one token, and no key may begin with it. -/
theorem block_inFront {keyAllowed : Bool} {s' : Input}
    (hread : readBlock false 1 s = some (cs, s')) :
    (inFront x s T [0] keyAllowed).block false s
      = some { input := s', tokens := .scalar .literal cs :: T, columns := [0] } := by
  have hinside : (inFront x s T [0] keyAllowed).inside = 1 := rfl
  unfold block dropCandidate
  dsimp only [Option.bind_eq_bind, Option.bind_some]
  rw [hinside, hread]
  rfl

theorem next_apostrophe (hx : x.char = '\'') (r : TokenReader) (s : Input) :
    r.next x s = r.node x (.scalar .other) (readSingle (s.length + 1) s) := by
  simp [next, hx, atDocumentMark_of_char hx (by decide)]

/-- Out of the flow a bar begins a block that keeps its lines. -/
theorem next_bar (hx : x.char = '|') (hflow : r.inFlow = false) (s : Input) :
    r.next x s = r.block false s := by
  simp [next, hx, hflow, atDocumentMark_of_char hx (by decide)]

/-! ### At the margin and behind a mark -/

instance : Decidable (Stands c) :=
  inferInstanceAs (Decidable (isSpace c = false ∧ c ≠ '#' ∧ c ≠ '\uFEFF'))

/-- A token that begins where it can be seen. -/
def Clears (cs : List Char) : Prop :=
  ∀ c ∈ cs.head?, Stands c

theorem Clears.stops (h : Clears cs) : Stops cs :=
  fun c hc => (h c hc).1

theorem Stands.clears (hc : Stands c) (cs : List Char) : Clears (c :: cs) :=
  fun _ hd => Option.some.inj hd ▸ hc

/-- A character that stands breaks no line, so the next one stands right behind it. -/
theorem Stands.locate_cons (hc : Stands c) (index line column : Nat) (cs : List Char) :
    locate index line column (c :: cs)
      = ⟨c, index, line, column⟩ :: locate (index + 1) line (column + 1) cs :=
  Yaml.locate_cons (isBreak_of_not_isSpace hc.1) cs

/-- No space is skipped in front of what clears the line. -/
theorem skipSpace_clears (h : Clears cs) (keyAllowed : Bool) (index line column : Nat) :
    skipSpace false false keyAllowed (locate index line column cs)
      = (keyAllowed, locate index line column cs) := by
  cases cs with
  | nil => rfl
  | cons c cs =>
    have hc : Stands c := h c rfl
    rw [hc.locate_cons]
    exact skipSpace_of_stands hc false keyAllowed _

/-- Behind the line feed at its end, a line is over. -/
theorem skipSpace_feed (h : Clears cs) (keyAllowed : Bool) (index line column : Nat) :
    skipSpace false false keyAllowed (locate index line column ('\n' :: cs))
      = (true, locate (index + 1) (line + 1) 0 cs) := by
  have hbreak : isBreak '\n' = true := rfl
  rw [locate_cons_break rfl rfl, skipSpace, if_pos hbreak, skipSpace_clears h]
  simp

/-- A single space is skipped. -/
theorem skipSpace_space (h : Clears cs) (keyAllowed : Bool) (index line column : Nat) :
    skipSpace false false keyAllowed (locate index line column (' ' :: cs))
      = (keyAllowed, locate (index + 1) line (column + 1) cs) := by
  have hbreak : isBreak ' ' = false := rfl
  rw [locate_cons hbreak, skipSpace, if_neg (by simp [hbreak]), if_neg (by simp),
    if_pos (by simp), skipSpace_clears h]

/-- The reader is about to read `cs` at the margin. -/
structure AtMargin (r : TokenReader) (cs : List Char) (T : List Token) (columns : List Nat) :
    Prop where
  place : ∃ index line, skipSpace false false r.keyAllowed r.input
      = (true, locate index line 0 cs)
    ∧ ∀ k, r.candidate = some k → k.required = false ∧ k.first.line < line
  tokens : r.tokens = T
  columns : r.columns = columns
  outer : r.outer = []

/-- The reader is about to read `cs` behind a mark, in a mapping at the margin. -/
structure BehindMark (r : TokenReader) (cs : List Char) (T : List Token) : Prop where
  input : ∃ index line column, r.input = locate index line (column + 1) cs
  tokens : r.tokens = T
  columns : r.columns = [0]
  candidate : r.candidate = none
  outer : r.outer = []

/-- Behind a line feed the reader is at the margin. -/
theorem BehindMark.feed (hr : r.BehindMark ('\n' :: cs) T) (h : Clears cs) :
    r.AtMargin cs T [0] := by
  obtain ⟨index, line, column, hinput⟩ := hr.input
  refine { place := ⟨index + 1, line + 1, ?_, by simp [hr.candidate]⟩, tokens := hr.tokens,
           columns := hr.columns, outer := hr.outer }
  rw [hinput, skipSpace_feed h]

/-- A token at the margin. -/
theorem AtMargin.goes (hr : r.AtMargin (c :: cs) T columns) (hcolumns : ∀ n ∈ columns, n = 0)
    (hc : Stands c)
    (hnext : ∀ index line, ∃ r₂,
      (inFront ⟨c, index, line, 0⟩ (locate (index + 1) line 1 cs) T columns true).next
          ⟨c, index, line, 0⟩ (locate (index + 1) line 1 cs) = some r₂
        ∧ r₂.input.length ≤ (locate (index + 1) line 1 cs).length ∧ P r₂) :
    Goes True r P := by
  obtain ⟨⟨index, line, hskip, hcandidate⟩, rfl, rfl, houter⟩ := hr
  obtain ⟨r₂, hread, hle, hP⟩ := hnext index line
  rw [hc.locate_cons] at hskip
  have hflow : r.inFlow = false := by rw [inFlow, houter]; rfl
  -- What might have been a key is on a line above, so it is none, and none was required.
  have hexpire : expire ⟨c, index, line, 0⟩ r.candidate = some none := by
    cases hr : r.candidate with
    | none => rfl
    | some k =>
      obtain ⟨hfree, hline⟩ := hcandidate k hr
      rw [expire, if_pos (.inl hline), hfree]
      rfl
  exact goes_next (by rw [hflow]; exact hskip) (expireAll_of_outer houter hexpire)
    (close_of_margin (r := inFront _ _ _ _ _) hcolumns _) hread hle hP

/-- A token behind a mark, which a space sets off from it. -/
theorem BehindMark.goes (hr : r.BehindMark (' ' :: c :: cs) T) (hc : Stands c)
    (hnext : ∀ index line column keyAllowed, ∃ r₂,
      (inFront ⟨c, index, line, column + 1⟩ (locate (index + 1) line (column + 2) cs) T [0]
          keyAllowed).next
          ⟨c, index, line, column + 1⟩ (locate (index + 1) line (column + 2) cs) = some r₂
        ∧ r₂.input.length ≤ (locate (index + 1) line (column + 2) cs).length ∧ P r₂) :
    Goes True r P := by
  obtain ⟨⟨index, line, column, hinput⟩, rfl, hcolumns, hcandidate, houter⟩ := hr
  obtain ⟨r₂, hread, hle, hP⟩ := hnext (index + 1) line (column + 1) r.keyAllowed
  -- The blank behind the mark is skipped, and the token begins.
  have hskip := skipSpace_space (hc.clears cs) r.keyAllowed index line (column + 1)
  rw [← hinput, hc.locate_cons] at hskip
  have hflow : r.inFlow = false := by rw [inFlow, houter]; rfl
  rw [← hcolumns] at hread
  exact goes_next (by rw [hflow]; exact hskip) (expireAll_of_outer houter (by rw [hcandidate]; rfl))
    (close_of_margin (by simp [hcolumns]) _) hread hle hP

/-! ### Texts -/

/-- A plain text begins no mark. -/
theorem next_written (hcs : PlainWhole (c :: cs)) (hflow : r.inFlow = false) (hx : x.char = c)
    {index line column : Nat} (hs : s = locate index line column (cs ++ rest))
    (hmark : atDocumentMark (x :: s) = false) : r.next x s = r.plain x := by
  obtain ⟨hne, hsoft⟩ := of_startsLikeMark_eq_false hcs.mark
  have hspace : isSpace c = false :=
    isSpace_of_isInline (hcs.isInline c List.mem_cons_self) (hcs.head c rfl)
  -- Three of the marks need a space behind them.
  have hat : c ∈ ['?', ':', '-'] → atSpace s = false := by
    intro hc
    obtain ⟨d, cs, rfl, hd⟩ := hsoft hc
    rw [hs, List.cons_append, atSpace_locate (isPrintable_of_isInline (hcs.isInline d (by simp)))]
    exact hd
  have hsolid : ∀ d ∈ ['?', ':', '-'], ¬(c = d ∧ atSpace s = true) := by
    rintro d hd ⟨rfl, hspace⟩
    exact absurd hspace (by simp [hat hd])
  simp only [List.mem_cons, List.not_mem_nil, or_false, not_or] at hne
  have hbegins : beginsPlain false c = true := by
    unfold beginsPlain
    split_ifs
    · rfl
    · rfl
    · simp [hspace, hne]
  subst hx
  simp only [List.mem_cons, List.not_mem_nil, or_false, forall_eq_or_imp, forall_eq] at hsolid
  simp [next, hmark, hne, hflow, hsolid, hbegins]

/-- Behind the characters that are written there is less of the input. -/
theorem length_locate_le (h : Printable cs) (rest : List Char)
    (index line column index' line' column' : Nat) :
    (locate index' line' column' rest).length
      ≤ (locate index line column (cs ++ rest)).length := by
  rw [length_locate_append h rest index' line' column']
  exact Nat.le_add_left _ _

/-- The fuel suffices for the characters that are read. -/
theorem lt_length_locate {n : Nat} (h : Printable cs) (hn : n ≤ cs.length) (rest : List Char)
    (index line column : Nat) : n < (locate index line column (cs ++ rest)).length + 1 := by
  rw [length_locate_append h rest 0 0 0]
  omega

namespace BehindMark

/-- A plain text. -/
theorem plain (hr : r.BehindMark (' ' :: (cs ++ '\n' :: rest)) T) (hcs : PlainWhole cs)
    (hrest : Clears rest) : Goes True r (·.AtMargin rest (.scalar .plain cs :: T) [0]) := by
  obtain ⟨c, cs, rfl⟩ := List.exists_cons_of_ne_nil hcs.ne_nil
  have hc := hcs.stands
  refine hr.goes hc fun index line column keyAllowed => ?_
  have hprintable := printable_of_isInline hcs.isInline
  -- The scalar is read to the end of its line.
  have hread := readPlain_rest index line (Nat.succ_pos column) hcs.toPlainRest hcs.ne_nil
    (fun d hd => Option.some.inj hd ▸ ⟨hcs.head c rfl, hc.2.1⟩)
    (Nat.lt_succ_of_le (Nat.le_add_right _ (locate 0 0 0 ('\n' :: rest)).length)) hrest.stops {}
  rw [← length_locate_append hprintable, List.cons_append, hc.locate_cons] at hread
  refine ⟨_, (next_written hcs rfl rfl rfl (atDocumentMark_of_column (Nat.succ_ne_zero _) _)).trans
    (plain_inFront hread), ?_, ?_⟩
  · -- At least the scalar and its line feed have been read.
    have hline := (printable_of_isInline (hcs.behind [c]).isInline).append
      (.cons rfl printable_nil : Printable ['\n'])
    have hle := length_locate_le hline rest (index + 1) line (column + 2)
    rw [List.append_assoc] at hle
    exact hle _ _ _
  · refine { place := ⟨_, _, skipSpace_clears hrest _ _ _ _, fun k hk => ?_⟩, tokens := rfl,
             columns := rfl, outer := rfl }
    obtain ⟨hfree, hfirst⟩ := noted_inside (Nat.succ_ne_zero column) hk
    exact ⟨hfree, by rw [hfirst]; exact Nat.lt_succ_self line⟩

/-- A text between quotes. -/
theorem quoted {mark : Char} {ds : List Char} {read : Input → Option (List Char × Input)}
    (hr : r.BehindMark (' ' :: mark :: (ds ++ mark :: '\n' :: rest)) T) (hmark : Stands mark)
    (hnext : ∀ (r : TokenReader) (x : Located) s, x.char = mark →
      r.next x s = r.node x (.scalar .other) (read s))
    (hread : ∀ index line column, ∃ index' line' column', line ≤ line'
      ∧ read (locate index line (column + 1) (ds ++ mark :: '\n' :: rest))
        = some (cs, locate index' line' column' ('\n' :: rest)))
    (hprintable : Printable (ds ++ [mark])) (hrest : Clears rest) :
    Goes True r (·.AtMargin rest (.scalar .other cs :: T) [0]) := by
  refine hr.goes hmark fun index line column keyAllowed => ?_
  obtain ⟨i, l, k, hl, hread⟩ := hread (index + 1) line (column + 1)
  refine ⟨_, (hnext _ _ _ rfl).trans (node_inFront hread), ?_, ?_⟩
  · -- At least the text and the closing quote have been read.
    have hle := length_locate_le hprintable ('\n' :: rest) (index + 1) line (column + 2)
    rw [List.append_assoc] at hle
    exact hle i l k
  · refine { place := ⟨_, _, skipSpace_feed hrest _ _ _ _, fun k hk => ?_⟩, tokens := rfl,
             columns := rfl, outer := rfl }
    obtain ⟨hfree, hfirst⟩ := noted_inside (Nat.succ_ne_zero column) hk
    exact ⟨hfree, by rw [hfirst]; exact Nat.lt_succ_of_le hl⟩

/-- A text in single quotes is read as it was. -/
theorem single (hr : r.BehindMark (' ' :: (Yaml.single 2 cs ++ '\n' :: rest)) T)
    (hcs : Apostrophic cs) (hrest : Clears rest) :
    Goes True r (·.AtMargin rest (.scalar .other cs :: T) [0]) := by
  have hprintable : Printable (singleFrom 2 false cs) := hcs.toLiterate.toPrintable.singleFrom
  rw [Yaml.single, List.append_assoc] at hr
  refine quoted hr (by decide) (fun r x s hx => next_apostrophe hx r s)
    (fun index line column => ?_) (hprintable.append (.cons rfl printable_nil)) hrest
  exact readSingle_written index line (by decide) (Nat.succ_pos column) hcs
    (lt_length_locate hprintable (length_singleFrom 2 false cs) _ _ _ _) rest

/-- A text in double quotes is read as it was. -/
theorem double (hr : r.BehindMark (' ' :: (Yaml.double cs ++ '\n' :: rest)) T)
    (hrest : Clears rest) : Goes True r (·.AtMargin rest (.scalar .other cs :: T) [0]) := by
  have hprintable : Printable (cs.flatMap doubleChar ++ ['"']) :=
    fun c hc => printable_of_isInline (isInline_double cs) c (List.mem_cons_of_mem _ hc)
  rw [Yaml.double, List.append_assoc] at hr
  refine quoted hr (by decide) (fun r x s hx => next_quote hx r s) (fun index line column => ?_)
    hprintable hrest
  obtain ⟨i, k, hread⟩ := readDouble_written index line (Nat.succ_pos column)
    (lt_length_locate (fun c hc => hprintable c (List.mem_append_left _ hc)) (length_doubled cs)
      _ _ _ _) ('\n' :: rest)
  exact ⟨i, line, k, le_rfl, hread⟩

/-- A text of several lines. -/
theorem literal (hr : r.BehindMark (' ' :: (Yaml.literal 2 cs ++ rest)) T) (hcs : BlockText cs)
    (hrest : Clears rest) :
    Goes True r (·.AtMargin rest (.scalar .literal cs :: T) [0]) := by
  -- The bar, the hints, the lines, and the break that closes them.
  have htext : Yaml.literal 2 cs ++ rest = '|' :: (literalHints cs
      ++ '\n' :: (literalLines 2 true cs ++ (closing cs ++ rest))) := by
    simp [Yaml.literal, closing]
  rw [htext] at hr
  have hbar : Stands '|' := by decide
  refine hr.goes hbar fun index line column keyAllowed => ?_
  obtain ⟨i, l, hl, hread⟩ := readBlock_written (index + 1) line (column + 2) hcs hrest.stops
  refine ⟨_, (next_bar rfl rfl _).trans (block_inFront hread), ?_, ?_⟩
  · -- At least the head and the lines of the block have been read.
    have hprintable : Printable
        (literalHints cs ++ '\n' :: literalLines 2 true cs ++ closing cs) := fun c hc =>
      printable_literal 2 hcs.toLiterate.toPrintable c (List.mem_cons_of_mem _ hc)
    have hle := length_locate_le hprintable rest (index + 1) line (column + 2) i l 0
    simpa only [List.append_assoc, List.cons_append] using hle
  · exact { place := ⟨i, l, skipSpace_clears hrest true i l 0, by simp⟩, tokens := rfl,
            columns := rfl, outer := rfl }

/-- **A text is a token of its own**, however it is written. -/
theorem text (hr : r.BehindMark (' ' :: (Yaml.text 2 cs ++ rest)) T) (hrest : Clears rest) :
    Goes True r (·.AtMargin rest (textToken cs :: T) [0]) := by
  rw [Yaml.text] at hr
  unfold textToken readStyle
  -- The reader of each style reads what is written in it.
  cases hstyle : Style.choose cs with
  | plain =>
    rw [hstyle, List.append_assoc] at hr
    exact hr.plain (plainWhole_of_choose hstyle) hrest
  | single =>
    rw [hstyle, List.append_assoc] at hr
    exact hr.single (apostrophic_of_choose hstyle) hrest
  | double =>
    rw [hstyle, List.append_assoc] at hr
    exact hr.double hrest
  | literal =>
    rw [hstyle] at hr
    exact hr.literal (blockText_of_choose hstyle) hrest

end BehindMark

/-! ### Keys and items -/

/-- A word is read up to its colon. -/
theorem readPlain_word {w : List Char} (hw : Word w) (hc : isPrintable c = true)
    (hspace : isSpace c = true) (indent fuel index line : Nat) :
    readPlain false indent (fuel + 1) {} (locate index line 0 (w ++ ':' :: c :: cs))
      = some ⟨w, false, locate (index + w.length) line w.length (':' :: c :: cs)⟩ := by
  have hwhole := plainWhole_of_choose hw.plain
  have hpart := plainPart_written index line 0 hwhole.toPlainRest hw.solid
    (halts_colon hc hspace cs)
  rw [Nat.zero_add] at hpart
  obtain ⟨d, w, rfl⟩ := List.exists_cons_of_ne_nil hwhole.ne_nil
  have hd := hwhole.stands
  -- A word begins neither a comment nor the mark of a document.
  have hgoes : (atDocumentMark (locate index line 0 (d :: w ++ ':' :: c :: cs))
      || nextIs (· == '#') (locate index line 0 (d :: w ++ ':' :: c :: cs))) = false := by
    rw [List.cons_append, hd.locate_cons, atDocumentMark_of_char rfl (hw.head d rfl), nextIs]
    simpa using hd.2.1
  rw [readPlain, hgoes, if_neg (by simp), hpart]
  dsimp only [Option.bind_eq_bind, Option.bind_some]
  rw [if_neg (by simp), locate_cons rfl]
  rfl

/-- The start of the mapping whose first key is next. -/
def opening (columns : List Nat) : List Token :=
  if columns.isEmpty then [.mappingStart] else []

/-- The reader behind a word that began at `x`, where a key may begin. -/
abbrev behindWord (w : List Char) (x : Located) (T : List Token) (columns : List Nat)
    (s : Input) : TokenReader :=
  { input := s, tokens := .scalar .plain w :: T, columns, candidate := noted x T columns true,
    keyAllowed := false }

/-- The colon behind a word shows that the word is a key. -/
theorem colon_behindWord (w : List Char) (T : List Token) (s' : Input)
    (hcolumns : columns = [] ∨ columns = [0]) (hx : x.column = 0) (y : Located) (s : Input) :
    (behindWord w x T columns s').colon y s
      = some { input := s, tokens := .value :: .scalar .plain w :: .key :: (opening columns ++ T),
               columns := [0], keyAllowed := false } := by
  have hkey : T.length + 1 - T.length = 1 := by omega
  have hstart : T.length + 1 + 1 - T.length = 2 := by omega
  obtain rfl | rfl := hcolumns <;>
  simp [colon, noted, insert, indent, inFlow, inside, push, opening, hx, hkey, hstart]

theorem next_colon_space (hx : x.char = ':') (hs : atSpace s = true) (r : TokenReader) :
    r.next x s = r.colon x s := by
  simp [next, hx, hs, atDocumentMark_of_char hx (by decide)]

/-- A word with a colon behind it is a key, and opens the mapping if it is the first. -/
theorem goes_colon {w : List Char} (hw : Word w) (hcolumns : columns = [] ∨ columns = [0])
    (hx : x.column = 0) (hc : isPrintable c = true) (hspace : isSpace c = true) :
    Goes True (behindWord w x T columns
        (locate (x.index + w.length) x.line w.length (':' :: c :: cs)))
      (·.BehindMark (c :: cs) (.value :: .scalar .plain w :: .key :: (opening columns ++ T))) := by
  have hcolon : Stands ':' := by decide
  -- Up to 1024 characters may stand between the start of a key and its colon.
  have hlength := hw.length_le
  have hmargin : ∀ n ∈ columns, n = 0 := by
    obtain rfl | rfl := hcolumns <;> simp
  rw [hcolon.locate_cons]
  generalize hy : (⟨':', x.index + w.length, x.line, w.length⟩ : Located) = y
  generalize hs : locate (x.index + w.length + 1) x.line (w.length + 1) (c :: cs) = s
  have hchar : y.char = ':' := by rw [← hy]
  have hnear : expire y (noted x T columns true) = some (noted x T columns true) :=
    expire_noted (by rw [← hy]) (by rw [← hy]; exact Nat.add_le_add_left (by omega) _)
  have hexpire : (behindWord w x T columns (y :: s)).expireAll y
      = some (behindWord w x T columns (y :: s)) := by
    rw [expireAll, hnear]
    rfl
  refine goes_next (skipSpace_of_stands (hchar ▸ hcolon) _ _ _) hexpire
    (close_of_margin hmargin _) ((next_colon_space hchar ?_ _).trans
      (colon_behindWord w T _ hcolumns hx y s)) le_rfl ?_
  · rw [← hs, atSpace_locate hc, hspace]
  · exact { input := ⟨_, _, _, hs.symm⟩, tokens := rfl, columns := rfl, candidate := rfl,
            outer := rfl }

/-- **A key is read as the word that it is**, with the start of its mapping if it is the first. -/
theorem AtMargin.key {w : List Char} (hr : r.AtMargin (w ++ ':' :: c :: cs) T columns)
    (hw : Word w) (hcolumns : columns = [] ∨ columns = [0]) (hc : isPrintable c = true)
    (hspace : isSpace c = true) : Goes True r
      (·.BehindMark (c :: cs) (.value :: .scalar .plain w :: .key :: (opening columns ++ T))) := by
  have hwhole := plainWhole_of_choose hw.plain
  obtain ⟨d, w, rfl⟩ := List.exists_cons_of_ne_nil hwhole.ne_nil
  have hmargin : ∀ n ∈ columns, n = 0 := by
    obtain rfl | rfl := hcolumns <;> simp
  have hd := hwhole.stands
  -- The word is a plain scalar at first, and only its colon makes it a key.
  have hreaches : Goes True r fun r' => ∃ index line, r' = behindWord (d :: w) ⟨d, index, line, 0⟩ T
      columns (locate (index + (d :: w).length) line (d :: w).length (':' :: c :: cs)) := by
    refine hr.goes hmargin hd fun index line => ?_
    have hread (indent fuel : Nat) :
        readPlain false indent (fuel + 1) {} (locate index line 0 (d :: w ++ ':' :: c :: cs)) = _ :=
      readPlain_word hw hc hspace indent fuel index line
    rw [List.cons_append, hd.locate_cons] at hread
    have hmark := atDocumentMark_of_char (x := ⟨d, index, line, 0⟩) rfl (hw.head d rfl)
    refine ⟨_, (next_written hwhole rfl rfl rfl (hmark _)).trans (plain_inFront (hread _ _)), ?_,
      ⟨index, line, rfl⟩⟩
    exact length_locate_le (printable_of_isInline (hwhole.behind [d]).isInline) _ _ _ _ _ _ _
  refine hreaches.trans ?_
  rintro _ ⟨index, line, rfl⟩
  exact goes_colon hw hcolumns rfl hc hspace

/-- A hyphen with a space behind it begins an item. -/
theorem next_hyphen {y : Located} (hx : x.char = '-') (hy : y.char = ' ') (r : TokenReader)
    (s : Input) : r.next x (y :: s) = r.hyphen x (y :: s) := by
  have hmark : atDocumentMark (x :: y :: s) = false := by
    cases s with
    | nil => rfl
    | cons z s => simp [atDocumentMark, hx, hy]
  have hspace : atSpace (y :: s) = true := by rw [atSpace, hy]; rfl
  simp [next, hx, hmark, hspace]

/-- An item begins behind its hyphen. -/
theorem AtMargin.item (hr : r.AtMargin ('-' :: ' ' :: cs) T [0]) :
    Goes True r (·.BehindMark (' ' :: cs) (.hyphen :: T)) := by
  refine hr.goes (by simp) (by decide) fun index line => ?_
  have hplace : locate (index + 1) line 1 (' ' :: cs)
      = ⟨' ', index + 1, line, 1⟩ :: locate (index + 1 + 1) line (1 + 1) cs := locate_cons rfl cs
  rw [hplace]
  exact ⟨_, next_hyphen rfl rfl _ _, le_rfl,
    { input := ⟨_, _, _, hplace.symm⟩, tokens := rfl, columns := rfl, candidate := rfl,
      outer := rfl }⟩

/-- The reader behind the bracket at `x`. -/
abbrev behindBracket (x : Located) (T : List Token) (keyAllowed : Bool) (s : Input) :
    TokenReader :=
  { input := s, tokens := .openBracket :: T, columns := [0], outer := [noted x T [0] keyAllowed] }

/-- A bracket opens a list in the flow, and its place is kept below. -/
theorem openFlow_inFront (keyAllowed : Bool) :
    (inFront x s T [0] keyAllowed).openFlow x .openBracket s
      = some (behindBracket x T keyAllowed s) := by
  rw [openFlow, noteCandidate_inFront]
  rfl

/-- The bracket behind closes the list, and the line ends. -/
theorem goes_closing {index line column : Nat} (keyAllowed : Bool) (hrest : Clears rest) :
    Goes True (behindBracket ⟨'[', index, line, column + 1⟩ T keyAllowed
        (locate (index + 1) line (column + 2) (']' :: '\n' :: rest)))
      (·.AtMargin rest (.closeBracket :: .openBracket :: T) [0]) := by
  have hclose : Stands ']' := by decide
  rw [hclose.locate_cons]
  -- From here on it only counts that the brackets stand on one line behind the margin.
  generalize hx : (⟨'[', index, line, column + 1⟩ : Located) = x
  generalize hy : (⟨']', index + 1, line, column + 2⟩ : Located) = y
  generalize hs : locate (index + 1 + 1) line (column + 2 + 1) ('\n' :: rest) = s
  have hchar : y.char = ']' := by rw [← hy]
  -- The two brackets stand side by side, so the place of the first is kept.
  have hnear : expire y (noted x T [0] keyAllowed) = some (noted x T [0] keyAllowed) :=
    expire_noted (by rw [← hx, ← hy]) (by rw [← hx, ← hy]; exact Nat.add_le_add_left (by decide) _)
  have hexpire : (behindBracket x T keyAllowed (y :: s)).expireAll y
      = some (behindBracket x T keyAllowed (y :: s)) := by
    rw [expireAll, List.mapM_cons, hnear]
    rfl
  refine goes_next (skipSpace_of_stands (hchar ▸ hclose) _ _ _) hexpire
    (close_of_margin (r := behindBracket x T keyAllowed (y :: s)) (by simp) _)
    (next_closeBracket hchar _ _) le_rfl ?_
  refine { place := ⟨index + 1 + 1 + 1, line + 1, ?_, fun k hk => ?_⟩, tokens := rfl,
           columns := rfl, outer := rfl }
  · rw [← skipSpace_feed hrest false (index + 1 + 1) line (column + 2 + 1), hs]
  · obtain ⟨hfree, hfirst⟩ := noted_inside (by rw [← hx]; exact Nat.succ_ne_zero column) hk
    exact ⟨hfree, by rw [hfirst, ← hx]; exact Nat.lt_succ_self line⟩

/-- An empty list stands in brackets. -/
theorem BehindMark.brackets (hr : r.BehindMark (' ' :: '[' :: ']' :: '\n' :: rest) T)
    (hrest : Clears rest) :
    Goes True r (·.AtMargin rest (.closeBracket :: .openBracket :: T) [0]) := by
  -- First the opening bracket, then the closing one.
  have hopen : Goes True r fun r' => ∃ index line column keyAllowed,
      r' = behindBracket ⟨'[', index, line, column + 1⟩ T keyAllowed
        (locate (index + 1) line (column + 2) (']' :: '\n' :: rest)) :=
    hr.goes (by decide) fun index line column keyAllowed =>
      ⟨_, (next_openBracket rfl _ _).trans (openFlow_inFront keyAllowed), le_rfl, index, line,
        column, keyAllowed, rfl⟩
  refine hopen.trans ?_
  rintro _ ⟨index, line, column, keyAllowed, rfl⟩
  exact goes_closing keyAllowed hrest

/-- Nothing is left but the end of the mapping. -/
theorem AtMargin.done (hr : r.AtMargin [] T [0]) (fuel : Nat) :
    run (fuel + 1) r = some (.blockEnd :: T).reverse := by
  obtain ⟨⟨index, line, hskip, hcandidate⟩, rfl, hcolumns, houter⟩ := hr
  have hflow : r.inFlow = false := by rw [inFlow, houter]; rfl
  rw [run, hflow, hskip, locate]
  dsimp only
  rw [close, if_neg (by simp [hflow]), hcolumns]
  exact Option.bind_eq_some_iff.mpr
    ⟨_, dropCandidate_of_free fun k hk => (hcandidate k hk).1, rfl⟩

/-! ### Whole settings -/

/-- **The items of a list are read one by one.** -/
theorem AtMargin.items (ss : List String) (hr : r.AtMargin
      (Yaml.items 0 true (ss.map .string) ++ rest) T [0]) (hrest : Clears rest) :
    Goes True r (·.AtMargin rest
      ((ss.flatMap itemTokens).reverse ++ T) [0]) := by
  induction ss generalizing r T with
  | nil => exact .refl hr
  | cons s ss ih =>
    -- Behind an item there is the next one, or what is behind the list.
    have hclears : Clears (Yaml.items 0 true (ss.map .string) ++ rest) := by
      cases ss with
      | nil => exact hrest
      | cons s ss => exact (by decide : Stands '-').clears _
    have hitem : Yaml.items 0 true ((s :: ss).map .string) ++ rest = '-' :: ' ' ::
        (Yaml.text 2 s.toList ++ (Yaml.items 0 true (ss.map .string) ++ rest)) := by
      simp [Yaml.items, child, scalar, spaces]
    rw [hitem] at hr
    refine (hr.item.trans fun r₁ hr₁ => hr₁.text hclears).trans fun r₂ hr₂ => ?_
    simpa [itemTokens] using ih hr₂

/-- **A setting is read behind its word.** -/
theorem BehindMark.setting {setting : Setting}
    (hr : r.BehindMark (child 0 false setting.value ++ rest) T) (hrest : Clears rest) :
    Goes True r (·.AtMargin rest (setting.tokens.reverse ++ T) [0]) := by
  cases setting with
  | text s => exact hr.text hrest
  | flag b =>
    have hflag : child 0 false (Setting.flag b).value ++ rest
        = ' ' :: (flagText b ++ '\n' :: rest) := by cases b <;> rfl
    rw [hflag] at hr
    exact hr.plain (plainWhole_flagText b) hrest
  -- A list without items stands in brackets, any other on lines of its own.
  | texts ss => cases ss with
    | nil => exact hr.brackets hrest
    | cons s ss =>
      have hitems : r.BehindMark
          ('\n' :: (Yaml.items 0 true ((s :: ss).map .string) ++ rest)) T := hr
      exact (hitems.feed ((by decide : Stands '-').clears _)).items (s :: ss) hrest

/-- A setting is written as its name, a colon and its value. -/
theorem members_word {w : String} (hw : Word w.toList) (v : Json.Value)
    (ms : List (String × Json.Value)) :
    members 0 true ((w, v) :: ms) = w.toList ++ ':' :: (child 0 false v ++ members 0 true ms) := by
  rw [members, if_pos hw.fits, key, hw.plain]
  simp [spaces]

/-- Behind its colon, a value is set off by white space. -/
theorem exists_child_cons (v : Json.Value) : ∃ c cs, child 0 false v = c :: cs
    ∧ isPrintable c = true ∧ isSpace c = true := by
  unfold child
  split
  · exact ⟨'\n', _, rfl, rfl, rfl⟩
  · exact ⟨'\n', _, rfl, rfl, rfl⟩
  · exact ⟨' ', _, rfl, rfl, rfl⟩

/-- A name stands at the margin and clears the line. -/
theorem Word.clears {w : List Char} (hw : Word w) (cs : List Char) : Clears (w ++ cs) := by
  have hwhole := plainWhole_of_choose hw.plain
  obtain ⟨d, w, rfl⟩ := List.exists_cons_of_ne_nil hwhole.ne_nil
  exact hwhole.stands.clears _

/-- One setting. -/
theorem AtMargin.setting {w : String} {setting : Setting} {ms : List (String × Json.Value)}
    (hr : r.AtMargin (members 0 true ((w, setting.value) :: ms)) T columns) (hw : Word w.toList)
    (hcolumns : columns = [] ∨ columns = [0]) (hms : Clears (members 0 true ms)) :
    Goes True r (·.AtMargin (members 0 true ms)
      ((entryTokens (w, setting)).reverse ++ (opening columns ++ T)) [0]) := by
  obtain ⟨c, cs, hchild, hc, hspace⟩ := exists_child_cons setting.value
  rw [members_word hw, hchild, List.cons_append] at hr
  refine (hr.key hw hcolumns hc hspace).trans fun r₁ hr₁ => ?_
  rw [← List.cons_append, ← hchild] at hr₁
  simpa [entryTokens] using hr₁.setting hms

/-- The settings begin with a name, or there is nothing left. -/
theorem clears_members {ms : List (String × Setting)} (hms : ∀ m ∈ ms, Word m.1.toList) :
    Clears (members 0 true (ms.map (Prod.map id Setting.value))) := by
  cases ms with
  | nil => exact fun _ h => absurd h (by simp [members])
  | cons m ms =>
    have hm := hms m List.mem_cons_self
    rw [List.map_cons, Prod.map_apply', id, members_word hm]
    exact Word.clears hm _

/-- The settings behind the first. -/
theorem AtMargin.settings (ms : List (String × Setting)) (hms : ∀ m ∈ ms, Word m.1.toList)
    (hr : r.AtMargin (members 0 true (ms.map (Prod.map id Setting.value))) T [0]) :
    Goes True r (·.AtMargin [] ((ms.flatMap entryTokens).reverse ++ T) [0]) := by
  induction ms generalizing r T with
  | nil => exact .refl hr
  | cons m ms ih =>
    obtain ⟨hm, hms⟩ := List.forall_mem_cons.mp hms
    refine (AtMargin.setting hr hm (.inr rfl) (clears_members hms)).trans fun r₁ hr₁ => ?_
    simpa [opening] using ih hms hr₁

end TokenReader

/-- **Settings are read as they were written.** -/
theorem stream?_settings {ms : List (String × Setting)} (hne : ms ≠ [])
    (hms : ∀ m ∈ ms, Word m.1.toList) : Token.stream? (document (settings ms))
      = some (.mappingStart :: (ms.flatMap entryTokens ++ [.blockEnd])) := by
  obtain ⟨m, ms, rfl⟩ := List.exists_cons_of_ne_nil hne
  obtain ⟨hm, hms⟩ := List.forall_mem_cons.mp hms
  have hclears := TokenReader.clears_members (List.forall_mem_cons.mpr ⟨hm, hms⟩)
  have hstart : TokenReader.AtMargin { input := locate 0 0 0 (document (settings (m :: ms))) }
      (members 0 true ((m :: ms).map (Prod.map id Setting.value))) [] [] :=
    { place := ⟨0, 0, TokenReader.skipSpace_clears hclears true 0 0 0, by simp⟩, tokens := rfl,
      columns := rfl, outer := rfl }
  -- The first setting opens the mapping, and the others go on with it.
  have hgoes := (hstart.setting hm (.inl rfl) (TokenReader.clears_members hms)).trans
    fun r hr => hr.settings ms hms
  rw [Token.stream?, ofChars?_document]
  have hyields : Yields True _
      (· = .mappingStart :: ((m :: ms).flatMap entryTokens ++ [.blockEnd])) :=
    hgoes.yields fun r hr fuel => by
      rw [hr.done fuel]
      exact .some (by simp [TokenReader.opening])
  obtain ⟨ts, hts⟩ := hyields.total trivial
  exact hts.trans (congrArg some (hyields.sound ts hts))

end CompositeCrd.Yaml
