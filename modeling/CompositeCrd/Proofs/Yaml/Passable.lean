import CompositeCrd.Proofs.Yaml.Scalar
import CompositeCrd.Yaml.Dynamic

/-!
# JSON texts that YAML reads

YAML refuses some documents that JSON admits. What it minds in the characters of a document is
told by going through them one by one, with the number of open brackets at hand (`Site.step`):
half of a surrogate pair behind a backslash, a line break inside of a text, a tab outside of
brackets, and a key that is long or has its colon on another line. With the numerals and words
that are admitted it is a matter of a predicate `ok`, such as `isReadable`. A document that goes
through, and has no characters that YAML does not know, is `passable`.

A quoted text in such a document is read as the same text (`readDouble_legible`).
-/

namespace CompositeCrd.Yaml

open Json (dropSpace symbols Skips)

variable {ok : List Char → Bool} {cs r ds word : List Char} {c : Char}
  {fuel n depth index line column : Nat}

/-! ### Places in a document -/

/-- Whether a scalar has a value, unless it is between quotes. -/
def isReadable (word : List Char) : Bool :=
  (Dynamic.ofScalar? word (resolve word)).isSome

/-- The greatest number of characters between the quotes of a key. From the quote in front of it
to the colon there must not be more than 1024. -/
def longestKey : Nat :=
  1022

/-- Where the next character of a JSON document stands. -/
inductive Place where
  /-- Outside of texts, behind these characters of a numeral or a word, the last first. -/
  | outside (word : List Char)
  /-- Inside a text, behind so many characters. -/
  | inside (length : Nat)
  /-- Behind a backslash. -/
  | escape (length : Nat)
  /-- Inside the code of a character, behind digits that write `value`, with so many more to come
  behind the next one. -/
  | code (more value length : Nat)
  /-- Behind the closing quote of a text of so many characters. -/
  | closed (length : Nat)

namespace Place

/-- The place behind a character of a text, if the character is one that YAML admits. -/
def step : Place → Char → Option Place
  | .inside n, c =>
    if isBreak c then none
    else if c = '"' then some (.closed n)
    else if c = '\\' then some (.escape (n + 1))
    else some (.inside (n + 1))
  | .escape n, c => if c = 'u' then some (.code 3 0 (n + 1)) else some (.inside (n + 1))
  | .code more value n, c => do
    let value := value * 16 + (← Json.hexDigit? c)
    match more with
    | 0 => if (charOf? value).isSome then some (.inside (n + 1)) else none
    | more + 1 => some (.code more value (n + 1))
  | .outside _, _ | .closed _, _ => none

theorem step_inside : (inside n).step c = if isBreak c then none
    else if c = '"' then some (closed n)
    else if c = '\\' then some (escape (n + 1))
    else some (inside (n + 1)) := rfl

/-- Behind a backslash there is the code of a character, or one character more. -/
theorem step_escape : (escape n).step c
    = if c = 'u' then some (code 3 0 (n + 1)) else some (inside (n + 1)) := rfl

/-- A digit of a code that is not the last. -/
theorem step_code {more value d : Nat} (hd : Json.hexDigit? c = some d) :
    (code (more + 1) value n).step c = some (code more (value * 16 + d) (n + 1)) := by
  change (Json.hexDigit? c).bind _ = _
  rw [hd]
  rfl

/-- The last digit of a code, which must be that of a character. -/
theorem step_code_last {value d : Nat} (hd : Json.hexDigit? c = some d) :
    (code 0 value n).step c
      = if (charOf? (value * 16 + d)).isSome then some (inside (n + 1)) else none := by
  change (Json.hexDigit? c).bind _ = _
  rw [hd]
  rfl

end Place

/-! ### Sites in a document -/

/-- The number of open brackets behind a character that stands outside of texts. -/
def depthBehind (depth : Nat) (c : Char) : Nat :=
  if c = '[' ∨ c = '\x7b' then depth + 1
  else if c = ']' ∨ c = '\x7d' then depth - 1
  else depth

/-- Where the next character of a JSON document stands, and inside of how many brackets. -/
structure Site where
  depth : Nat
  place : Place

/-- Inside of a text, and not behind it. -/
def Place.Within : Place → Prop
  | .inside _ | .escape _ | .code _ _ _ => True
  | .outside _ | .closed _ => False

namespace Site

/-- The site behind a character that stands outside of texts. No colon may stand there but one
behind a key, and no tab but inside of brackets. -/
def pass (ok : List Char → Bool) (depth : Nat) (word : List Char) (c : Char) : Option Site :=
  if isPlainChar c then some ⟨depth, .outside (c :: word)⟩
  else if (word ≠ [] ∧ ok word.reverse = false) ∨ (c = '\t' ∧ depth = 0) ∨ c = ':' then none
  else some ⟨depthBehind depth c, if c = '"' then .inside 0 else .outside []⟩

/-- The site behind a character that stands behind a text, where `n` characters are gone since
the quote in front of it. -/
def passText (ok : List Char → Bool) (depth n : Nat) (c : Char) : Option Site :=
  if c = ':' then if n ≤ longestKey then some ⟨depth, .outside []⟩ else none
  else if c = ' ' ∨ (c = '\t' ∧ depth ≠ 0) then some ⟨depth, .closed (n + 1)⟩
  else pass ok depth [] c

/-- The site behind a character, if the character is one that YAML admits. -/
def step (ok : List Char → Bool) (s : Site) (c : Char) : Option Site :=
  match s.place with
  | .outside word => pass ok s.depth word c
  | .closed n => passText ok s.depth n c
  | place => (place.step c).map (Site.mk s.depth)

/-- All characters are admitted from a site on. -/
def Legible (ok : List Char → Bool) (s : Site) (cs : List Char) : Prop :=
  (cs.foldlM (step ok) s).isSome = true

end Site

/-- Whether YAML admits all characters of a JSON document, with these numerals and words. -/
def passable (ok : List Char → Bool) (cs : List Char) : Bool :=
  cs.all isAllowed && (cs.foldlM (Site.step ok) ⟨0, .outside []⟩).isSome

/-- Behind a value comes a character that can neither go on with it nor be a colon. -/
theorem Followed.exists_not_plain (hr : Followed r) :
    ∃ c r', r = c :: r' ∧ isPlainChar c = false ∧ c ≠ ':' := by
  obtain ⟨c, r', heq, hc⟩ := hr
  have hmark : isPlainChar c = false ∧ c ≠ ':' := by
    simp only [List.mem_cons, List.not_mem_nil, or_false] at hc
    obtain rfl | rfl | rfl := hc <;> decide
  -- There is white space in front of the mark, or the mark comes first.
  obtain ⟨front, hr, hfront⟩ := behind_dropSpace r
  rw [heq] at hr
  rcases front with _ | ⟨d, front⟩
  · exact ⟨c, r', hr, hmark⟩
  · refine ⟨d, front ++ c :: r', hr, ?_⟩
    have hd := hfront d List.mem_cons_self
    simp only [Json.Document.isSpace, Bool.or_eq_true, decide_eq_true_eq] at hd
    obtain ((rfl | rfl) | rfl) | rfl := hd <;> decide

namespace Site

theorem pass_of_plain (hc : isPlainChar c = true) :
    pass ok depth word c = some ⟨depth, .outside (c :: word)⟩ :=
  if_pos hc

/-- Any other character ends the numeral or word in front of it. -/
theorem pass_of_not_plain (hc : isPlainChar c = false) :
    pass ok depth word c
      = if (word ≠ [] ∧ ok word.reverse = false) ∨ (c = '\t' ∧ depth = 0) ∨ c = ':' then none
        else some ⟨depthBehind depth c, if c = '"' then .inside 0 else .outside []⟩ :=
  if_neg (by simp [hc])

/-- Inside of a text the number of open brackets does not matter. -/
theorem step_within {p : Place} (h : p.Within) :
    step ok ⟨depth, p⟩ c = (p.step c).map (Site.mk depth) := by
  cases p with
  | outside | closed => exact h.elim
  | inside | escape | code => rfl

/-- White space leaves the brackets as they are. -/
theorem depthBehind_of_space (hc : Json.Document.isSpace (.char c) = true) :
    depthBehind depth c = depth := by
  simp only [Json.Document.isSpace, Bool.or_eq_true, decide_eq_true_eq] at hc
  obtain ((rfl | rfl) | rfl) | rfl := hc <;> rfl

/-- White space is neither part of a numeral or word nor a quote. -/
theorem not_plain_of_space (hc : Json.Document.isSpace (.char c) = true) :
    isPlainChar c = false ∧ c ≠ '"' := by
  simp only [Json.Document.isSpace, Bool.or_eq_true, decide_eq_true_eq] at hc
  obtain ((rfl | rfl) | rfl) | rfl := hc <;> decide

end Site

namespace Site.Legible

open Place

/-- A legible document goes on with a character that is admitted. -/
theorem exists_step {s : Site} (h : s.Legible ok (c :: cs)) :
    ∃ s', s.step ok c = some s' ∧ s'.Legible ok cs := by
  change (List.foldlM (step ok) s (c :: cs)).isSome = true at h
  rw [List.foldlM_cons] at h
  cases hstep : s.step ok c with
  | none => simp [hstep] at h
  | some s' =>
    rw [hstep] at h
    exact ⟨s', rfl, h⟩

/-- A document is legible if its first character is admitted and the rest is legible behind it. -/
theorem of_step {s s' : Site} (hstep : s.step ok c = some s') (h : s'.Legible ok cs) :
    s.Legible ok (c :: cs) := by
  change (List.foldlM (step ok) s (c :: cs)).isSome = true
  rw [List.foldlM_cons, hstep]
  exact h

/-! ### Outside of texts -/

/-- What is known where a character stands that ends a numeral or word. -/
theorem of_pass (h : Legible ok ⟨depth, outside word⟩ (c :: cs)) (hc : isPlainChar c = false) :
    (word ≠ [] → ok word.reverse = true) ∧ ¬(c = '\t' ∧ depth = 0) ∧ c ≠ ':'
      ∧ Legible ok ⟨depthBehind depth c, if c = '"' then inside 0 else outside []⟩ cs := by
  obtain ⟨s, hstep, hs⟩ := h.exists_step
  change pass ok depth word c = some s at hstep
  rw [pass_of_not_plain hc] at hstep
  split at hstep
  · exact absurd hstep (by simp)
  next hadmitted =>
  obtain rfl := Option.some.inj hstep
  -- What is not admitted: a word that is not read, a tab in the block, a colon.
  obtain ⟨hword, htab, hcolon⟩ := not_or.mp hadmitted |>.imp_right not_or.mp
  exact ⟨fun hne => by simpa [hne] using hword, htab, hcolon, hs⟩

/-- A mark outside of texts. -/
theorem mark (h : Legible ok ⟨depth, outside []⟩ (c :: cs))
    (hc : isPlainChar c = false ∧ c ≠ '"') :
    Legible ok ⟨depthBehind depth c, outside []⟩ cs := by
  obtain ⟨-, -, -, hrest⟩ := h.of_pass hc.1
  rwa [if_neg hc.2] at hrest

/-- A quote begins a text. -/
theorem quote (h : Legible ok ⟨depth, outside []⟩ ('"' :: cs)) :
    Legible ok ⟨depth, inside 0⟩ cs := by
  obtain ⟨-, -, -, hrest⟩ := h.of_pass (by decide)
  exact hrest

/-- No tab stands outside of brackets. -/
theorem not_tab (h : Legible ok ⟨0, outside []⟩ ('\t' :: cs)) : False := by
  obtain ⟨-, htab, -⟩ := h.of_pass (by decide)
  exact htab ⟨rfl, rfl⟩

/-- No colon stands anywhere but behind a key. -/
theorem not_colon (h : Legible ok ⟨depth, outside []⟩ (':' :: cs)) : False := by
  obtain ⟨-, -, hcolon, -⟩ := h.of_pass (by decide)
  exact hcolon rfl

/-- White space does not matter. -/
theorem behind {cs' : List Char} (h : Legible ok ⟨depth, outside []⟩ cs) (hcs : Behind cs' cs) :
    Legible ok ⟨depth, outside []⟩ cs' := by
  obtain ⟨front, rfl, hfront⟩ := hcs
  induction front with
  | nil => exact h
  | cons c front ih =>
    obtain ⟨hc, hrest⟩ := List.forall_mem_cons.mp hfront
    have hbehind := h.mark (not_plain_of_space hc)
    rw [depthBehind_of_space hc] at hbehind
    exact ih hrest hbehind

/-- Numerals and words are gone through character by character. -/
theorem plain (h : Legible ok ⟨depth, outside word⟩ (ds ++ r))
    (hds : ∀ c ∈ ds, isPlainChar c = true) :
    Legible ok ⟨depth, outside (ds.reverse ++ word)⟩ r := by
  induction ds generalizing word with
  | nil => exact h
  | cons c ds ih =>
    -- Each character goes in front of the word that is noted backwards.
    obtain ⟨hc, hrest⟩ := List.forall_mem_cons.mp hds
    obtain ⟨s, hstep, hs⟩ := h.exists_step
    obtain rfl := Option.some.inj ((pass_of_plain hc).symm.trans hstep)
    rw [List.reverse_cons, List.append_assoc]
    exact ih hs hrest

/-- A numeral or a word ends where the value does. -/
theorem followed (h : Legible ok ⟨depth, outside word⟩ r) (hr : Followed r) (hword : word ≠ []) :
    ok word.reverse = true ∧ Legible ok ⟨depth, outside []⟩ r := by
  obtain ⟨c, r, rfl, hc, -⟩ := hr.exists_not_plain
  obtain ⟨hok, htab, hcolon, hrest⟩ := h.of_pass hc
  refine ⟨hok hword, of_step ?_ hrest⟩
  refine (pass_of_not_plain hc).trans (if_neg ?_)
  simp [htab, hcolon]

/-! ### Behind texts -/

/-- Behind a text that is a value, it does not matter that there was one. -/
theorem closed_followed (h : Legible ok ⟨depth, closed n⟩ r) (hr : Followed r) :
    Legible ok ⟨depth, outside []⟩ r := by
  induction r generalizing n with
  | nil =>
    obtain ⟨c, r, heq, -⟩ := hr.exists_not_plain
    exact absurd heq (by simp)
  | cons c r ih =>
    obtain ⟨c', r', heq, hc, hcolon⟩ := hr.exists_not_plain
    obtain ⟨rfl, rfl⟩ := List.cons.inj heq
    obtain ⟨s, hstep, hs⟩ := h.exists_step
    change passText ok depth n c = some s at hstep
    rw [passText, if_neg hcolon] at hstep
    split at hstep
    · next hblank =>
      -- A blank is passed over from both sites.
      obtain rfl := Option.some.inj hstep
      have hspace : Json.Document.isSpace (.char c) = true := by
        obtain rfl | ⟨rfl, -⟩ := hblank <;> rfl
      have hr' : Followed r := by
        obtain ⟨d, r', hdrop, hd⟩ := hr
        exact ⟨d, r', (dropSpace_cons hspace r).symm.trans hdrop, hd⟩
      have hpass : pass ok depth [] c = some ⟨depth, outside []⟩ := by
        obtain rfl | ⟨rfl, htab⟩ := hblank
        · rfl
        · exact (pass_of_not_plain rfl).trans (if_neg (by simp [htab]))
      exact of_step hpass (ih hs hr')
    · exact of_step hstep hs

/-- The colon behind a key follows on its line, and not too far behind it. -/
theorem closed_colon (h : Legible ok ⟨depth, closed n⟩ r) (hr : dropSpace r = ':' :: cs) :
    ∃ blanks, r = blanks ++ ':' :: cs ∧ (∀ b ∈ blanks, isBlank b = true)
      ∧ n + blanks.length ≤ longestKey ∧ Legible ok ⟨depth, outside []⟩ cs := by
  induction r generalizing n with
  | nil => exact absurd hr (by simp [dropSpace])
  | cons c r ih =>
    obtain ⟨s, hstep, hs⟩ := h.exists_step
    change passText ok depth n c = some s at hstep
    -- Behind a closed text the document is scanned for the colon: a blank goes on, and anything
    -- else would have to stand outside of texts.
    by_cases hcolon : c = ':'
    · subst hcolon
      rw [passText, if_pos rfl] at hstep
      split at hstep
      · next hshort =>
        obtain rfl := Option.some.inj hstep
        rw [dropSpace_cons_of_not rfl] at hr
        obtain ⟨-, rfl⟩ := List.cons.inj hr
        exact ⟨[], rfl, by simp, hshort, hs⟩
      · exact absurd hstep (by simp)
    · have hspace : Json.Document.isSpace (.char c) = true := by
        by_contra hnot
        rw [dropSpace_cons_of_not (by simpa using hnot)] at hr
        exact hcolon (List.cons.inj hr).1
      have hr' : dropSpace r = ':' :: cs := (dropSpace_cons hspace r).symm.trans hr
      rw [passText, if_neg hcolon] at hstep
      split at hstep
      · next hblank =>
        obtain rfl := Option.some.inj hstep
        obtain ⟨blanks, rfl, hblanks, hshort, hrest⟩ := ih hs hr'
        refine ⟨c :: blanks, rfl, List.forall_mem_cons.mpr ⟨?_, hblanks⟩, ?_, hrest⟩
        · obtain rfl | ⟨rfl, -⟩ := hblank <;> rfl
        · rw [List.length_cons]
          omega
      · -- No colon may stand on a line of its own.
        have hmark := (of_step (s := ⟨depth, outside []⟩) hstep hs).mark (not_plain_of_space hspace)
        rw [depthBehind_of_space hspace] at hmark
        have hbehind : Behind (':' :: cs) r := hr' ▸ behind_dropSpace r
        exact (hmark.behind hbehind).not_colon.elim

/-! ### Inside of texts -/

/-- Inside of a text, the next character is admitted there. -/
theorem exists_within {p : Place} (h : Legible ok ⟨depth, p⟩ (c :: cs)) (hp : p.Within) :
    ∃ p', p.step c = some p' ∧ Legible ok ⟨depth, p'⟩ cs := by
  obtain ⟨s, hstep, hs⟩ := h.exists_step
  rw [step_within hp] at hstep
  obtain ⟨p', hp', rfl⟩ := Option.map_eq_some_iff.mp hstep
  exact ⟨p', hp', hs⟩

/-- A character of a text breaks no line. It ends the text, begins an escape or stands for itself.
-/
theorem inside_cons (h : Legible ok ⟨depth, inside n⟩ (c :: cs)) : isBreak c = false
    ∧ Legible ok ⟨depth, if c = '"' then closed n else if c = '\\' then escape (n + 1)
      else inside (n + 1)⟩ cs := by
  obtain ⟨p, hstep, hp⟩ := h.exists_within trivial
  rw [step_inside] at hstep
  split at hstep
  · exact absurd hstep (by simp)
  next hbreak =>
  refine ⟨by simpa using hbreak, ?_⟩
  rw [← apply_ite some, ← apply_ite some] at hstep
  rwa [Option.some.inj hstep]

/-- A short escape is one character. -/
theorem escape_cons (h : Legible ok ⟨depth, escape n⟩ (c :: cs)) (hc : c ≠ 'u') :
    Legible ok ⟨depth, inside (n + 1)⟩ cs := by
  obtain ⟨p, hstep, hp⟩ := h.exists_within trivial
  rw [step_escape, if_neg hc] at hstep
  obtain rfl := Option.some.inj hstep
  exact hp

/-- A digit of a code that is not the last is admitted. -/
theorem code_cons {more value d : Nat} (h : Legible ok ⟨depth, code (more + 1) value n⟩ (c :: cs))
    (hd : Json.hexDigit? c = some d) :
    Legible ok ⟨depth, code more (value * 16 + d) (n + 1)⟩ cs := by
  obtain ⟨p, hstep, hp⟩ := h.exists_within trivial
  rw [step_code hd] at hstep
  obtain rfl := Option.some.inj hstep
  exact hp

/-- Behind its last digit, a code is that of a character. -/
theorem code_last {value d : Nat} (h : Legible ok ⟨depth, code 0 value n⟩ (c :: cs))
    (hd : Json.hexDigit? c = some d) :
    (∃ e, charOf? (value * 16 + d) = some e) ∧ Legible ok ⟨depth, inside (n + 1)⟩ cs := by
  obtain ⟨p, hstep, hp⟩ := h.exists_within trivial
  rw [step_code_last hd] at hstep
  split at hstep
  · next hchar =>
    obtain rfl := Option.some.inj hstep
    exact ⟨Option.isSome_iff_exists.mp hchar, hp⟩
  · exact absurd hstep (by simp)

/-- A code point that is written in a text is that of a character. -/
theorem escape_code {h₁ h₂ h₃ h₄ : Char} {value : Nat}
    (h : Legible ok ⟨depth, escape n⟩ ('u' :: h₁ :: h₂ :: h₃ :: h₄ :: cs))
    (hvalue : Json.hex4? (.char h₁) (.char h₂) (.char h₃) (.char h₄) = some value) :
    (∃ d, charOf? value = some d) ∧ Legible ok ⟨depth, inside (n + 5)⟩ cs := by
  -- The four digits one by one; the last settles whether there is such a character.
  obtain ⟨n₁, hn₁, hvalue⟩ := Option.bind_eq_some_iff.mp hvalue
  obtain ⟨n₂, hn₂, hvalue⟩ := Option.bind_eq_some_iff.mp hvalue
  obtain ⟨n₃, hn₃, hvalue⟩ := Option.bind_eq_some_iff.mp hvalue
  obtain ⟨n₄, hn₄, hvalue⟩ := Option.bind_eq_some_iff.mp hvalue
  obtain rfl := Option.some.inj hvalue
  obtain ⟨p, hstep, hcode⟩ := h.exists_within trivial
  obtain rfl : p = code 3 0 (n + 1) := (Option.some.inj hstep).symm
  have hlast := ((hcode.code_cons hn₁).code_cons hn₂).code_cons hn₃
  simpa using hlast.code_last hn₄

end Site.Legible

/-! ### Quoted texts -/

/-- A document's start or end is marked at the start of a line. -/
theorem atDocumentMark_of_column {x : Located} (hx : x.column ≠ 0) (s : Input) :
    Input.atDocumentMark (x :: s) = false := by
  unfold Input.atDocumentMark
  split
  · next heq =>
    obtain ⟨rfl, -⟩ := List.cons.inj heq
    simp [hx]
  · rfl

/-- Blanks are read one by one, or together. -/
theorem readDouble_blank {x : Located} {s s' : Input} {g : Gap} (hbreak : isBreak x.char = false)
    (hblank : isBlank x.char = true) (hmark : Input.atDocumentMark (x :: s) = false)
    (hmark' : Input.atDocumentMark s = false) (hgap : Gap.read 0 false s = some (g, s'))
    (hbreaks : g.breaks = []) :
    ∃ fuel', fuel ≤ fuel' ∧ readDouble (fuel + 1) (x :: s)
      = prepend [x.char] (readDouble fuel' s) := by
  have hgap' : Gap.read 0 false (x :: s)
      = some ({ g with blanks := x.char :: g.blanks }, s') := by
    simp [Gap.read, hbreak, hblank, hgap]
  have htext : ({ g with blanks := x.char :: g.blanks } : Gap).text = x.char :: g.text := by
    simp [Gap.text, hbreaks]
  have hread : readDouble (fuel + 1) (x :: s)
      = prepend [x.char] (prepend g.text (readDouble fuel s')) := by
    rw [readDouble_cons]
    simp [hmark, isSpace_of_isBlank hblank, hgap', htext, prepend, Function.comp_def]
  -- Behind the blank either the same gap goes on, and the next step takes the rest of it, or the
  -- gap is just this blank.
  cases hspace : Input.nextIs isSpace s with
  | true =>
    obtain ⟨y, s, rfl, hy⟩ : ∃ y s₁, s = y :: s₁ ∧ isSpace y.char = true := by
      cases s with
      | nil => exact absurd hspace (by simp [Input.nextIs])
      | cons y s => exact ⟨y, s, rfl, hspace⟩
    refine ⟨fuel + 1, Nat.le_succ fuel, ?_⟩
    rw [hread, readDouble_cons]
    simp [hmark', hy, hgap]
  | false =>
    have hnone : Gap.read 0 false s = some ({}, s) := by
      cases s with
      | nil => rfl
      | cons y s =>
        obtain ⟨hblank, hbreak⟩ := Bool.or_eq_false_iff.mp hspace
        simp [Gap.read, hbreak, hblank]
    obtain ⟨rfl, rfl⟩ := Prod.mk.inj (Option.some.inj (hgap.symm.trans hnone))
    refine ⟨fuel, le_rfl, ?_⟩
    rw [hread]
    simp [prepend, Gap.text]

/-- The blanks in a legible text are on one line. -/
theorem exists_gap_legible (h : Site.Legible ok ⟨depth, .inside n⟩ cs) (index line column : Nat) :
    ∃ g s', Gap.read 0 false (Input.locate index line column cs) = some (g, s')
      ∧ g.breaks = [] := by
  induction cs generalizing n index column with
  | nil => exact ⟨{}, [], rfl, rfl⟩
  | cons c cs ih =>
    obtain ⟨hbreak, hrest⟩ := h.inside_cons
    rw [locate_cons hbreak]
    cases hblank : isBlank c with
    | false =>
      have hgap (s : Input) : Gap.read 0 false (⟨c, index, line, column⟩ :: s)
          = some ({}, ⟨c, index, line, column⟩ :: s) := by
        simp [Gap.read, hbreak, hblank]
      exact ⟨{}, _, hgap _, rfl⟩
    | true =>
      obtain ⟨hquote, hslash⟩ : c ≠ '"' ∧ c ≠ '\\' := by
        constructor <;> rintro rfl <;> exact absurd hblank (by decide)
      rw [if_neg hquote, if_neg hslash] at hrest
      obtain ⟨g, s', hgap, hbreaks⟩ := ih hrest (index + 1) (column + 1)
      refine ⟨{ g with blanks := c :: g.blanks }, s', ?_, hbreaks⟩
      -- A blank belongs to the gap, which goes on behind it.
      simp [Gap.read, hbreak, hblank, hgap]

/-- Reading goes through to the end of a text, `m` characters on, and gives the text. -/
def ReadsText (ok : List Char → Bool) (depth fuel n index line : Nat) (s : Input)
    (cs r : List Char) : Prop :=
  ∃ m text column, readDouble fuel s = some (text, Input.locate (index + m + 1) line column r)
    ∧ Json.readText (symbols cs) = .ok (text, symbols r)
    ∧ Site.Legible ok ⟨depth, .closed (n + m)⟩ r
    ∧ s.length = m + 1 + (Input.locate (index + m + 1) line column r).length

/-- A character of the text, which is written with `width` characters. -/
theorem ReadsText.char {fuel' : Nat} {s s' : Input} {cs' : List Char} (width : Nat)
    (h : ReadsText ok depth fuel' (n + width) (index + width) line s' cs' r)
    (hread : readDouble fuel s = prepend [c] (readDouble fuel' s'))
    (htext : Json.readText (symbols cs) = Json.push c (Json.readText (symbols cs')))
    (hlength : s.length = width + s'.length) : ReadsText ok depth fuel n index line s cs r := by
  -- What has been read behind is put behind the character.
  obtain ⟨m, text, column, hread', htext', hclosed, hlength'⟩ := h
  have hindex : index + width + m + 1 = index + (width + m) + 1 := by omega
  rw [hindex] at hread' hlength'
  refine ⟨width + m, c :: text, column, ?_, ?_, ?_, ?_⟩
  · rw [hread, hread']
    rfl
  · rw [htext, htext']
    rfl
  · rwa [← Nat.add_assoc]
  · omega

/-- Inside a line there is no mark of a document's start or end. -/
theorem atDocumentMark_locate (h : Site.Legible ok ⟨depth, .inside n⟩ cs)
    (index line column : Nat) :
    Input.atDocumentMark (Input.locate index line (column + 1) cs) = false := by
  cases cs with
  | nil => rfl
  | cons c cs =>
    rw [locate_cons h.inside_cons.1]
    exact atDocumentMark_of_column (Nat.succ_ne_zero column) _

/-- A character that stands for itself. -/
theorem exists_readDouble_char (hquote : c ≠ '"') (hslash : c ≠ '\\')
    (h : Site.Legible ok ⟨depth, .inside n⟩ (c :: cs)) (fuel index line column : Nat) :
    ∃ fuel', fuel ≤ fuel' ∧ readDouble (fuel + 1) (Input.locate index line (column + 1) (c :: cs))
      = prepend [c] (readDouble fuel' (Input.locate (index + 1) line (column + 1 + 1) cs)) := by
  have hmark := atDocumentMark_locate h index line column
  obtain ⟨hbreak, hrest⟩ := h.inside_cons
  rw [if_neg hquote, if_neg hslash] at hrest
  rw [locate_cons hbreak] at hmark ⊢
  -- A blank is read as a gap, which may go on behind it.
  cases hblank : isBlank c with
  | true =>
    obtain ⟨g, s', hgap, hbreaks⟩ := exists_gap_legible hrest (index + 1) line (column + 1 + 1)
    have hmark' := atDocumentMark_locate hrest (index + 1) line (column + 1)
    exact readDouble_blank hbreak hblank hmark hmark' hgap hbreaks
  | false =>
    refine ⟨fuel, le_rfl, ?_⟩
    rw [readDouble_cons]
    simp [hmark, isSpace, hbreak, hblank, hquote, hslash]

/-- A character that is written with a backslash and what follows. -/
theorem readDouble_escape {d : Char} {s : Input}
    (h : Site.Legible ok ⟨depth, .inside n⟩ ('\\' :: c :: cs)) (hc : isBreak c = false)
    (fuel index line column : Nat)
    (hescaped : escaped? c (Input.locate (index + 1 + 1) line (column + 1 + 1 + 1) cs)
      = some (d, s)) :
    readDouble (fuel + 1) (Input.locate index line (column + 1) ('\\' :: c :: cs))
      = prepend [d] (readDouble fuel s) := by
  have hmark := atDocumentMark_locate h index line column
  rw [locate_cons (by decide), locate_cons hc] at hmark ⊢
  rw [readDouble_cons]
  simp [hmark, show isSpace '\\' = false from rfl, hc, hescaped]

/-- **A legible text is read as what it is**, and the reader knows how far it went. -/
theorem readDouble_legible (hcs : Skips cs r) (h : Site.Legible ok ⟨depth, .inside n⟩ cs)
    (hfuel : (Input.locate index line (column + 1) cs).length < fuel) :
    ReadsText ok depth fuel n index line (Input.locate index line (column + 1) cs) cs r := by
  obtain ⟨fuel, rfl⟩ := Nat.exists_eq_add_one_of_ne_zero (Nat.ne_zero_of_lt hfuel)
  -- Along the text as JSON reads it: each step of JSON is one step of YAML, or none for a blank
  -- that a gap already took.
  induction hcs generalizing n fuel index column with
  | quote r =>
    have hmark := atDocumentMark_locate h index line column
    obtain ⟨hbreak, hclosed⟩ := h.inside_cons
    rw [locate_cons hbreak] at hmark ⊢
    refine ⟨0, [], column + 1 + 1, ?_, Json.readText_quote _, hclosed, Nat.add_comm _ 1⟩
    rw [readDouble_cons]
    simp [hmark, show isSpace '"' = false from rfl]
  | @char c cs r hquote hslash hcontrol hcs ih =>
    obtain ⟨fuel', hle, hread⟩ := exists_readDouble_char hquote hslash h fuel index line column
    obtain ⟨hbreak, hrest⟩ := h.inside_cons
    rw [if_neg hquote, if_neg hslash] at hrest
    have hlength : (Input.locate index line (column + 1) (c :: cs)).length
        = 1 + (Input.locate (index + 1) line (column + 1 + 1) cs).length := by
      rw [locate_cons hbreak]
      exact Nat.add_comm _ 1
    obtain ⟨fuel', rfl⟩ : ∃ fuel'', fuel' = fuel'' + 1 := ⟨fuel' - 1, by omega⟩
    exact (ih hrest fuel' (by omega)).char 1 hread (readText_char hquote hslash hcontrol cs) hlength
  | @escape e d cs r he hd hcs ih =>
    obtain ⟨hbreak, hescaped⟩ := escaped?_of_json hd
    have hread := readDouble_escape h hbreak fuel index line column (hescaped _)
    obtain ⟨-, hrest⟩ := h.inside_cons
    have hrest : Site.Legible ok ⟨depth, .inside (n + 2)⟩ cs := hrest.escape_cons he
    have hlength : (Input.locate index line (column + 1) ('\\' :: e :: cs)).length
        = 2 + (Input.locate (index + 2) line (column + 2 + 1) cs).length := by
      rw [locate_cons (by decide), locate_cons hbreak]
      exact Nat.add_comm _ 2
    obtain ⟨fuel, rfl⟩ : ∃ fuel', fuel = fuel' + 1 := ⟨fuel - 1, by omega⟩
    exact (ih hrest fuel (by omega)).char 2 hread (Json.readText_escape he hd _) hlength
  | @code h₁ h₂ h₃ h₄ value cs r hn hcs ih =>
    obtain ⟨-, hcode⟩ := h.inside_cons
    obtain ⟨⟨d, hd⟩, hrest⟩ := hcode.escape_code hn
    have hescaped : escaped? 'u'
        (Input.locate (index + 1 + 1) line (column + 1 + 1 + 1) (h₁ :: h₂ :: h₃ :: h₄ :: cs))
        = some (d, Input.locate (index + 6) line (column + 6 + 1) cs) := by
      have hnumber := hexNumber?_of_json hn (index + 1 + 1) line (column + 1 + 1 + 1) cs
      simp [escaped?, escaped?.code, hnumber, hd]
    have hread := readDouble_escape h (by decide) fuel index line column hescaped
    have hlength : (Input.locate index line (column + 1)
          ('\\' :: 'u' :: h₁ :: h₂ :: h₃ :: h₄ :: cs)).length
        = 6 + (Input.locate (index + 6) line (column + 6 + 1) cs).length := by
      obtain ⟨hbreak₁, hbreak₂, hbreak₃, hbreak₄⟩ := isBreak_of_hex4? hn
      rw [locate_cons (by decide), locate_cons (by decide), locate_cons hbreak₁,
        locate_cons hbreak₂, locate_cons hbreak₃, locate_cons hbreak₄]
      exact Nat.add_comm _ 6
    obtain ⟨fuel, rfl⟩ : ∃ fuel', fuel = fuel' + 1 := ⟨fuel - 1, by omega⟩
    exact (ih hrest fuel (by omega)).char 6 hread (readText_code hn hd cs) hlength

/-- What a text of JSON is in YAML: the same if that is `sure`, and otherwise maybe with other
space in place of line breaks. -/
structure ReadAs (sure : Prop) (t text : List Char) : Prop where
  folded : Folded t text
  same : sure → text = t

/-- **A quoted text of JSON in YAML.** It is read if it is legible. -/
theorem readDouble_quoted {sure : Prop} {x : Located} {s : Input} (hs : Shows (x :: s) ('"' :: cs))
    (hcs : Skips cs r) (h : sure → Site.Legible ok ⟨depth, .outside []⟩ ('"' :: cs)) :
    Yields sure (readDouble (s.length + 1) s) fun p =>
      (∃ t, Json.readText (symbols cs) = .ok (t, symbols r) ∧ ReadAs sure t p.1)
        ∧ Shows p.2 r ∧ (sure → p.2.length ≤ s.length)
        ∧ (sure → ∃ n column, p.2 = Input.locate (x.index + n + 2) x.line column r
          ∧ Site.Legible ok ⟨depth, .closed n⟩ r) := by
  obtain ⟨index, line, column, heq⟩ := hs
  rw [locate_cons (by decide)] at heq
  obtain ⟨rfl, hs⟩ := List.cons.inj heq
  have hread (hsure : sure) : ReadsText ok depth (s.length + 1) 0 (index + 1) line s cs r := by
    rw [hs]
    exact readDouble_legible hcs (h hsure).quote (Nat.lt_succ_self _)
  refine ⟨?_, fun hsure => ?_⟩
  · rintro ⟨text, s'⟩ htext
    obtain ⟨hs', t, ht, hfolded⟩ := readDouble_skips ⟨_, _, _, hs⟩ hcs htext
    -- A legible text is read in one way only, so what was read is the text of JSON.
    have hknown (hsure : sure) : text = t ∧ s'.length ≤ s.length ∧ ∃ n column,
        s' = Input.locate (index + n + 2) line column r ∧ Site.Legible ok ⟨depth, .closed n⟩ r := by
      obtain ⟨m, text', column', htext', ht', hclosed, hlength⟩ := hread hsure
      obtain ⟨rfl, rfl⟩ := Prod.mk.inj (Option.some.inj (htext.symm.trans htext'))
      obtain ⟨rfl, -⟩ := Prod.mk.inj (Except.ok.inj (ht.symm.trans ht'))
      refine ⟨rfl, hlength ▸ Nat.le_add_left _ _, m, column', ?_, by simpa using hclosed⟩
      congr 1
      omega
    exact ⟨⟨t, ht, hfolded, fun hsure => (hknown hsure).1⟩, hs', fun hsure => (hknown hsure).2.1,
      fun hsure => (hknown hsure).2.2⟩
  · -- If it is sure that the text is legible, it is read.
    obtain ⟨m, text, column', htext, -⟩ := hread hsure
    exact ⟨_, htext⟩

end CompositeCrd.Yaml
