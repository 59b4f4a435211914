import CompositeCrd.Proofs.Json.Source
import CompositeCrd.Yaml.Token.Scalar

/-!
# JSON texts and numerals as YAML scalars

Where a JSON document has a quoted text, a numeral or a word, the readers of YAML scalars find a
scalar, if they find anything (`readDouble_skips`, `readPlain_followed`). A numeral or word is
the scalar as it stands. A quoted text is the same text in both notations unless a line break
stands in it as it is: JSON knows only line feeds and carriage returns as such and admits
neither, while YAML reads the others as space between two lines (`Folded`).

Where something stands counts for nothing between brackets, so what is left of a document is
described by its characters alone (`Shows`). That a reader is right and that it gives something
at all are stated together (`Yields`).
-/

namespace CompositeCrd.Yaml

open Json (dropSpace symbols Skips)

variable {s s' : Input} {cs r ds t text : List Char} {c : Char} {fuel : Nat}

/-! ### Results of readers -/

/-- What a reader gives satisfies `P`, and it does give something if that is `sure`. -/
structure Yields {α : Type} (sure : Prop) (x : Option α) (P : α → Prop) : Prop where
  sound : ∀ a, x = some a → P a
  total : sure → ∃ a, x = some a

namespace Yields

variable {α β : Type} {sure sure' : Prop} {x : Option α} {a : α} {f : α → Option β}
  {P P' : α → Prop} {Q : β → Prop}

/-- A result that is as it should be. -/
theorem some (h : P a) : Yields sure (some a) P where
  sound _ ha := Option.some.inj ha ▸ h
  total _ := ⟨a, rfl⟩

/-- There may be no result as long as none is sure. -/
theorem none (h : ¬sure) : Yields sure none P where
  sound _ h := nomatch h
  total hsure := absurd hsure h

/-- One reader behind another. -/
theorem bind (h : Yields sure x P) (hf : ∀ a, P a → Yields sure (f a) Q) :
    Yields sure (x.bind f) Q where
  sound b hb := by
    obtain ⟨a, ha, hb⟩ := Option.bind_eq_some_iff.mp hb
    exact (hf a (h.sound a ha)).sound b hb
  total hsure := by
    obtain ⟨a, ha⟩ := h.total hsure
    obtain ⟨b, hb⟩ := (hf a (h.sound a ha)).total hsure
    exact ⟨b, Option.bind_eq_some_iff.mpr ⟨a, ha, hb⟩⟩

/-- Less may be asked of a result, and less be sure about it. -/
theorem mono (h : Yields sure x P) (hsure : sure' → sure) (hP : ∀ a, P a → P' a) :
    Yields sure' x P' where
  sound a ha := hP a (h.sound a ha)
  total h' := h.total (hsure h')

end Yields

/-! ### The characters of an input -/

/-- The input has these characters, wherever they stand. -/
def Shows (s : Input) (cs : List Char) : Prop :=
  ∃ index line column, s = Input.locate index line column cs

/-- No characters, no input. -/
theorem Shows.nil (h : Shows s []) : s = [] := by
  obtain ⟨index, line, column, rfl⟩ := h
  rw [Input.locate]

/-- A character that does not break a line stands where it stands. -/
theorem locate_cons {index line column : Nat} (hc : isBreak c = false) (cs : List Char) :
    Input.locate index line column (c :: cs)
      = ⟨c, index, line, column⟩ :: Input.locate (index + 1) line (column + 1) cs := by
  rw [Input.locate.eq_def]
  split
  · next heq => exact absurd heq (by simp)
  · -- A carriage return in front of a line feed would break the line.
    next heq =>
    obtain ⟨rfl, -⟩ := List.cons.inj heq
    exact absurd hc (by decide)
  · next c' cs' _ heq =>
    obtain ⟨rfl, rfl⟩ := List.cons.inj heq
    split
    · next hsep => rcases hsep with rfl | rfl <;> exact absurd hc (by decide)
    · rw [if_neg (by simp [hc])]

/-- A character that does not break a line is the next one of the input. -/
theorem Shows.cons (h : Shows s (c :: cs)) (hc : isBreak c = false) :
    ∃ x s', s = x :: s' ∧ x.char = c ∧ Shows s' cs := by
  obtain ⟨index, line, column, rfl⟩ := h
  exact ⟨_, _, locate_cons hc cs, rfl, _, _, _, rfl⟩

/-- A line break is seen as one, and a carriage return takes the line feed behind it along. -/
theorem Shows.cons_break (h : Shows s (c :: cs)) (hc : isBreak c = true) :
    ∃ x s', s = x :: s' ∧ isBreak x.char = true
      ∧ (Shows s' cs ∨ c = '\r' ∧ ∃ cs', cs = '\n' :: cs' ∧ Shows s' cs') := by
  obtain ⟨index, line, column, rfl⟩ := h
  rw [Input.locate.eq_def]
  split
  · next heq => exact absurd heq (by simp)
  · next cs' heq =>
    -- A carriage return and the line feed behind it are one line break.
    obtain ⟨rfl, rfl⟩ := List.cons.inj heq
    exact ⟨_, _, rfl, rfl, .inr ⟨rfl, cs', rfl, _, _, _, rfl⟩⟩
  · next c' cs' _ heq =>
    obtain ⟨rfl, rfl⟩ := List.cons.inj heq
    split
    · exact ⟨_, _, rfl, hc, .inl ⟨_, _, _, rfl⟩⟩
    · exact ⟨_, _, rfl, rfl, .inl ⟨_, _, _, rfl⟩⟩

/-- What is no white space breaks no line. -/
theorem isBreak_of_not_isSpace (h : isSpace c = false) : isBreak c = false := by
  rw [isSpace, Bool.or_eq_false_iff] at h
  exact h.2

/-- A character of the input is one of the text. -/
theorem Shows.of_cons {x : Located} (h : Shows (x :: s) cs) :
    ∃ c cs', cs = c :: cs' ∧ (isBreak x.char = false ∧ x.char = c ∧ Shows s cs'
      ∨ isBreak x.char = true ∧ isBreak c = true
        ∧ (Shows s cs' ∨ c = '\r' ∧ ∃ cs'', cs' = '\n' :: cs'' ∧ Shows s cs'')) := by
  cases cs with
  | nil => exact absurd h.nil (by simp)
  | cons c cs =>
    refine ⟨c, cs, rfl, ?_⟩
    -- Going by the character: a line break may have swallowed a line feed behind it.
    cases hc : isBreak c with
    | false =>
      obtain ⟨x', s', heq, rfl, hs⟩ := h.cons hc
      obtain ⟨rfl, rfl⟩ := List.cons.inj heq
      exact .inl ⟨hc, rfl, hs⟩
    | true =>
      obtain ⟨x', s', heq, hx, hs⟩ := h.cons_break hc
      obtain ⟨rfl, rfl⟩ := List.cons.inj heq
      exact .inr ⟨hx, rfl, hs⟩

theorem isSpace_of_isBreak (h : isBreak c = true) : isSpace c = true := by
  rw [isSpace, h, Bool.or_true]

theorem isSpace_of_isBlank (h : isBlank c = true) : isSpace c = true := by
  rw [isSpace, h, Bool.true_or]

/-- No input, no characters. -/
theorem Shows.eq_nil (h : Shows [] cs) : cs = [] := by
  cases cs with
  | nil => rfl
  | cons c cs =>
    -- Any character would be shown by one of the input.
    cases hc : isBreak c with
    | false =>
      obtain ⟨x, s', heq, -⟩ := h.cons hc
      exact absurd heq (by simp)
    | true =>
      obtain ⟨x, s', heq, -⟩ := h.cons_break hc
      exact absurd heq (by simp)

/-! ### White space between tokens -/

/-- The white space of JSON is white space in YAML. -/
theorem isSpace_of_json (h : Json.Document.isSpace (.char c) = true) : isSpace c = true := by
  simp only [Json.Document.isSpace, Bool.or_eq_true, decide_eq_true_eq] at h
  obtain ((rfl | rfl) | rfl) | rfl := h <;> rfl

theorem dropSpace_cons (h : Json.Document.isSpace (.char c) = true) (cs : List Char) :
    dropSpace (c :: cs) = dropSpace cs :=
  List.dropWhile_cons_of_pos h

/-- Nothing is skipped in front of what is no white space. -/
theorem dropSpace_cons_of_not (h : Json.Document.isSpace (.char c) = false) (cs : List Char) :
    dropSpace (c :: cs) = c :: cs :=
  List.dropWhile_cons_of_neg (by simp [h])

/-- The next token does not begin with a character that YAML takes for white space and JSON
does not. -/
def Solid (cs : List Char) : Prop :=
  ∀ c, (dropSpace cs).head? = some c → isSpace c = false

theorem Solid.congr {cs' : List Char} (h : Solid cs) (heq : dropSpace cs' = dropSpace cs) :
    Solid cs' :=
  fun c hc => h c (heq ▸ hc)

/-- What is left of a document behind some white space. -/
def Behind (cs' cs : List Char) : Prop :=
  ∃ front, cs = front ++ cs' ∧ ∀ c ∈ front, Json.Document.isSpace (.char c) = true

/-- Behind some of the white space, the same follows. -/
theorem Behind.dropSpace_eq {cs' : List Char} (h : Behind cs' cs) :
    dropSpace cs' = dropSpace cs := by
  obtain ⟨front, rfl, hfront⟩ := h
  induction front with
  | nil => rfl
  | cons c front ih =>
    obtain ⟨hc, hrest⟩ := List.forall_mem_cons.mp hfront
    rw [List.cons_append, dropSpace_cons hc]
    exact ih hrest

/-- What follows the white space stands behind it. -/
theorem behind_dropSpace (cs : List Char) : Behind (dropSpace cs) cs :=
  ⟨cs.takeWhile fun c => Json.Document.isSpace (.char c), List.takeWhile_append_dropWhile.symm,
    fun _ hc => List.mem_takeWhile_imp (p := fun c => Json.Document.isSpace (.char c)) hc⟩

/-- What is white space in YAML is white space in JSON, up to the next token. -/
theorem Shows.space {x : Located} (h : Shows (x :: s) cs) (hx : isSpace x.char = true)
    (hsolid : Solid cs) : ∃ cs', Shows s cs' ∧ Behind cs' cs := by
  obtain ⟨c, cs, rfl, hc⟩ := h.of_cons
  have hspace : isSpace c = true := by
    obtain ⟨-, rfl, -⟩ | ⟨-, hc, -⟩ := hc
    · exact hx
    · exact isSpace_of_isBreak hc
  have hjson : Json.Document.isSpace (.char c) = true := by
    -- Otherwise it would be what follows the white space, which is none.
    by_contra hnot
    have hhead := hsolid c (by rw [dropSpace_cons_of_not (by simpa using hnot)]; rfl)
    exact absurd hspace (by simp [hhead])
  obtain ⟨-, -, hs⟩ | ⟨-, -, hs | ⟨-, cs', rfl, hs⟩⟩ := hc
  · exact ⟨cs, hs, [c], rfl, List.forall_mem_singleton.mpr hjson⟩
  · exact ⟨cs, hs, [c], rfl, List.forall_mem_singleton.mpr hjson⟩
  · -- A carriage return and a line feed are one character of the input.
    refine ⟨cs', hs, [c, '\n'], rfl, ?_⟩
    exact List.forall_mem_cons.mpr ⟨hjson, List.forall_mem_singleton.mpr rfl⟩

/-- What is no white space in YAML is none in JSON. -/
theorem Shows.dropSpace_eq {x : Located} (h : Shows (x :: s) cs) (hx : isSpace x.char = false) :
    dropSpace cs = cs := by
  obtain ⟨c, cs, rfl, ⟨-, rfl, -⟩ | ⟨hbreak, -⟩⟩ := h.of_cons
  · refine dropSpace_cons_of_not ?_ cs
    by_contra hjson
    rw [isSpace_of_json (by simpa using hjson)] at hx
    exact absurd hx (by simp)
  · rw [isSpace_of_isBreak hbreak] at hx
    exact absurd hx (by simp)

/-- A gap is the white space up to the next token. -/
theorem gap_dropSpace {broken : Bool} {g : Gap} (hs : Shows s cs) (hsolid : Solid cs)
    (h : Gap.read 0 broken s = some (g, s')) : Shows s' (dropSpace cs) := by
  -- A break and a blank are each one step of the gap and one step of `dropSpace`.
  fun_induction Gap.read 0 broken s generalizing cs g with
  | case1 =>
    obtain ⟨-, rfl⟩ := Prod.mk.inj (Option.some.inj h)
    obtain rfl := hs.eq_nil
    exact hs
  | case2 broken x s hx ih =>
    obtain ⟨⟨g', rest⟩, hread, h⟩ := Option.bind_eq_some_iff.mp h
    obtain ⟨-, rfl⟩ := Prod.mk.inj (Option.some.inj h)
    obtain ⟨cs', hs', hbehind⟩ := hs.space (isSpace_of_isBreak hx) hsolid
    rw [← hbehind.dropSpace_eq]
    exact ih hs' (hsolid.congr hbehind.dropSpace_eq) hread
  | case3 => exact absurd h (by simp)
  | case4 x s _ hx _ ih =>
    obtain ⟨cs', hs', hbehind⟩ := hs.space (isSpace_of_isBlank hx) hsolid
    rw [← hbehind.dropSpace_eq]
    exact ih hs' (hsolid.congr hbehind.dropSpace_eq) h
  | case5 broken x s _ hx _ ih =>
    obtain ⟨⟨g', rest⟩, hread, h⟩ := Option.bind_eq_some_iff.mp h
    obtain ⟨-, rfl⟩ := Prod.mk.inj (Option.some.inj h)
    obtain ⟨cs', hs', hbehind⟩ := hs.space (isSpace_of_isBlank hx) hsolid
    rw [← hbehind.dropSpace_eq]
    exact ih hs' (hsolid.congr hbehind.dropSpace_eq) hread
  | case6 broken x s hbreak hblank =>
    obtain ⟨-, rfl⟩ := Prod.mk.inj (Option.some.inj h)
    have hx : isSpace x.char = false := by simp [isSpace, hbreak, hblank]
    rw [hs.dropSpace_eq hx]
    exact hs

/-- Behind a line break too, no column is too small for a gap without indentation. -/
theorem exists_gap (broken : Bool) (s : Input) :
    ∃ g s', Gap.read 0 broken s = some (g, s') ∧ s'.length ≤ s.length := by
  fun_induction Gap.read 0 broken s with
  | case1 => exact ⟨{}, [], rfl, le_rfl⟩
  | case2 broken x s hx ih =>
    obtain ⟨g, s', hread, hlength⟩ := ih
    exact ⟨_, s', by rw [hread]; rfl, Nat.le_succ_of_le hlength⟩
  -- Only a tab in the indentation stops a gap, and there is no indentation here.
  | case3 x s _ _ htab => exact absurd htab.2 (Nat.not_lt_zero _)
  | case4 x s _ _ _ ih =>
    obtain ⟨g, s', hread, hlength⟩ := ih
    exact ⟨g, s', hread, Nat.le_succ_of_le hlength⟩
  | case5 broken x s _ _ _ ih =>
    obtain ⟨g, s', hread, hlength⟩ := ih
    exact ⟨_, s', by rw [hread]; rfl, Nat.le_succ_of_le hlength⟩
  | case6 broken x s => exact ⟨{}, x :: s, rfl, le_rfl⟩

/-! ### Quoted texts -/

/-- A text and what becomes of it in YAML: the same, or both have space in them, the text a
line break. -/
def Folded (t text : List Char) : Prop :=
  t = text ∨ (∃ c ∈ t, isBreak c = true) ∧ ∃ c ∈ text, isSpace c = true

/-- Whether a name has no white space in it. -/
def spaceless (name : List Char) : Bool :=
  name.all fun c => !isSpace c

/-- There is no white space in a name without spaces. -/
theorem not_mem_of_spaceless {name : List Char} (hname : spaceless name = true)
    (hc : isSpace c = true) : c ∉ name := by
  intro hmem
  exact absurd (List.all_eq_true.mp hname c hmem) (by simp [hc])

/-- No text with a space is taken for a name, nor the other way around. -/
theorem Folded.eq_iff (h : Folded t text) {name : List Char} (hname : spaceless name = true) :
    t = name ↔ text = name := by
  obtain rfl | ⟨⟨c, hc, hbreak⟩, c', hc', hspace⟩ := h
  · exact Iff.rfl
  · refine iff_of_false ?_ ?_
    · rintro rfl
      exact not_mem_of_spaceless hname (isSpace_of_isBreak hbreak) hc
    · rintro rfl
      exact not_mem_of_spaceless hname hspace hc'

/-- Texts are folded part by part. -/
theorem Folded.append (h : Folded t text) {front front' : List Char}
    (hfront : Folded front front') :
    Folded (front ++ t) (front' ++ text) := by
  obtain rfl | ⟨⟨c, hc, hbreak⟩, c', hc', hspace⟩ := hfront
  · obtain rfl | ⟨⟨c, hc, hbreak⟩, c', hc', hspace⟩ := h
    · exact .inl rfl
    · exact .inr ⟨⟨c, List.mem_append_right _ hc, hbreak⟩,
        c', List.mem_append_right _ hc', hspace⟩
  · exact .inr ⟨⟨c, List.mem_append_left _ hc, hbreak⟩, c', List.mem_append_left _ hc', hspace⟩

/-- A character that need not be escaped is read as itself. -/
theorem readText_char (hquote : c ≠ '"') (hslash : c ≠ '\\') (hcontrol : ¬c.toNat < 0x20)
    (cs : List Char) :
    Json.readText (symbols (c :: cs)) = Json.push c (Json.readText (symbols cs)) := by
  rw [symbols, List.map_cons, Json.readText.eq_def]
  dsimp only
  rw [if_neg hquote, if_pos hslash, if_neg hcontrol]

/-- White space inside a text is read as it is. -/
theorem skips_cons_of_isSpace (h : Skips (c :: cs) r) (hc : isSpace c = true) :
    c ≠ '\r' ∧ Skips cs r ∧ ∀ t, Json.readText (symbols cs) = .ok (t, symbols r) →
      Json.readText (symbols (c :: cs)) = .ok (c :: t, symbols r) := by
  -- Only a character that stands for itself can be white space.
  cases h with
  | quote => exact absurd hc (by decide)
  | escape => exact absurd hc (by decide)
  | code => exact absurd hc (by decide)
  | char hquote hslash hcontrol h =>
    refine ⟨?_, h, fun t ht => ?_⟩
    · rintro rfl
      exact hcontrol (by decide)
    · rw [readText_char hquote hslash hcontrol, ht]
      rfl

/-- The text that a gap stands for has a space if there are line breaks. -/
theorem Gap.exists_isSpace {g : Gap} (hne : g.breaks ≠ [])
    (hbreaks : ∀ c ∈ g.breaks, isBreak c = true) : ∃ c ∈ g.text, isSpace c = true := by
  unfold Gap.text
  split
  · next hnil => exact absurd hnil hne
  · exact ⟨' ', List.mem_singleton_self _, rfl⟩
  · next breaks hmore heq =>
    -- The first line break joins the lines, and there is another one.
    obtain ⟨c, breaks, rfl⟩ := List.exists_cons_of_ne_nil hmore
    refine ⟨c, List.mem_cons_self, isSpace_of_isBreak (hbreaks c ?_)⟩
    rw [heq]
    exact List.mem_cons_of_mem _ List.mem_cons_self
  · obtain ⟨c, breaks, heq⟩ := List.exists_cons_of_ne_nil hne
    have hc : c ∈ g.breaks := heq ▸ List.mem_cons_self
    exact ⟨c, hc, isSpace_of_isBreak (hbreaks c hc)⟩

/-- What a gap inside a text stands for, beside the white space that is there. -/
structure Gap.Covers (g : Gap) (broken : Bool) (front : List Char) : Prop where
  breaks : ∀ c ∈ g.breaks, isBreak c = true
  some_break : g.breaks ≠ [] → ∃ c ∈ front, isBreak c = true
  no_break : g.breaks = [] → broken = false → g.blanks = front

/-- Inside of a text, a gap is white space of the text, and the text goes on behind it. -/
theorem gap_skips {broken : Bool} {g : Gap} (hs : Shows s cs) (hcs : Skips cs r)
    (h : Gap.read 0 broken s = some (g, s')) :
    ∃ front cs', cs = front ++ cs' ∧ Shows s' cs' ∧ Skips cs' r ∧ g.Covers broken front
      ∧ ∀ t, Json.readText (symbols cs') = .ok (t, symbols r) →
        Json.readText (symbols cs) = .ok (front ++ t, symbols r) := by
  fun_induction Gap.read 0 broken s generalizing cs g with
  | case1 =>
    obtain rfl := hs.eq_nil
    cases hcs
  | case2 broken x s hx ih =>
    obtain ⟨⟨g', rest⟩, hread, h⟩ := Option.bind_eq_some_iff.mp h
    obtain ⟨rfl, rfl⟩ := Prod.mk.inj (Option.some.inj h)
    obtain ⟨c, cs, rfl, ⟨hnot, -⟩ | ⟨-, hc, hs'⟩⟩ := hs.of_cons
    · exact absurd hx (by simp [hnot])
    obtain ⟨hreturn, hcs', hread'⟩ := skips_cons_of_isSpace hcs (isSpace_of_isBreak hc)
    -- A carriage return cannot stand in a text.
    have hs' : Shows s cs := hs'.resolve_right fun h => hreturn h.1
    obtain ⟨front, cs', rfl, hrest, hskips, hcovers, hreads⟩ := ih hs' hcs' hread
    refine ⟨c :: front, cs', rfl, hrest, hskips, ⟨?_, ?_, ?_⟩, fun t ht => hread' _ (hreads t ht)⟩
    · exact List.forall_mem_cons.mpr ⟨hx, hcovers.breaks⟩
    · exact fun _ => ⟨c, List.mem_cons_self, hc⟩
    · exact fun h => absurd h (by simp)
  | case3 => exact absurd h (by simp)
  -- Blanks of a line that is over are dropped.
  | case4 x s hnot hx _ ih =>
    obtain ⟨c, cs, rfl, ⟨-, rfl, hs'⟩ | ⟨hbreak, -⟩⟩ := hs.of_cons
    · obtain ⟨-, hcs', hread'⟩ := skips_cons_of_isSpace hcs (isSpace_of_isBlank hx)
      obtain ⟨front, cs', rfl, hrest, hskips, hcovers, hreads⟩ := ih hs' hcs' h
      refine ⟨x.char :: front, cs', rfl, hrest, hskips, ⟨hcovers.breaks, ?_, ?_⟩,
        fun t ht => hread' _ (hreads t ht)⟩
      · intro hne
        obtain ⟨b, hb, hbreak⟩ := hcovers.some_break hne
        exact ⟨b, List.mem_cons_of_mem _ hb, hbreak⟩
      · exact fun _ h => absurd h (by simp)
    · exact absurd hbreak hnot
  -- Blanks of the first line are kept until the line turns out to be over.
  | case5 broken x s hnot hx hbroken ih =>
    obtain ⟨⟨g', rest⟩, hread, h⟩ := Option.bind_eq_some_iff.mp h
    obtain ⟨rfl, rfl⟩ := Prod.mk.inj (Option.some.inj h)
    obtain ⟨c, cs, rfl, ⟨-, rfl, hs'⟩ | ⟨hbreak, -⟩⟩ := hs.of_cons
    · obtain ⟨-, hcs', hread'⟩ := skips_cons_of_isSpace hcs (isSpace_of_isBlank hx)
      obtain ⟨front, cs', rfl, hrest, hskips, hcovers, hreads⟩ := ih hs' hcs' hread
      refine ⟨x.char :: front, cs', rfl, hrest, hskips, ⟨hcovers.breaks, ?_, ?_⟩,
        fun t ht => hread' _ (hreads t ht)⟩
      · intro hne
        obtain ⟨b, hb, hbreak⟩ := hcovers.some_break hne
        exact ⟨b, List.mem_cons_of_mem _ hb, hbreak⟩
      · exact fun hnil _ => congrArg (x.char :: ·) (hcovers.no_break hnil rfl)
    · exact absurd hbreak hnot
  | case6 broken x s hbreak hblank =>
    obtain ⟨rfl, rfl⟩ := Prod.mk.inj (Option.some.inj h)
    exact ⟨[], cs, rfl, hs, hcs, ⟨by simp, by simp, by simp⟩, fun t ht => ht⟩

/-- The text of a gap is its white space, unless a line break stands in it. -/
theorem Gap.Covers.folded {g : Gap} {front : List Char} (h : g.Covers false front) :
    Folded front g.text := by
  by_cases hnil : g.breaks = []
  · refine .inl ?_
    rw [Gap.text, hnil]
    exact (h.no_break hnil rfl).symm
  · exact .inr ⟨h.some_break hnil, g.exists_isSpace hnil h.breaks⟩

/-! ### Escapes -/

/-- The letters of JSON's escapes, and the characters that they stand for. -/
theorem mem_of_escaped? {e d : Char} (hd : Json.escaped? e = some d) :
    (e, d) ∈ [('"', '"'), ('\\', '\\'), ('/', '/'), ('b', '\x08'), ('f', '\x0c'), ('n', '\n'),
      ('r', '\r'), ('t', '\t')] := by
  unfold Json.escaped? at hd
  split_ifs at hd with hself
  · obtain rfl := Option.some.inj hd
    rcases hself with rfl | rfl | rfl <;> decide
  all_goals
    obtain rfl := Option.some.inj hd
    subst e
    decide

/-- A letter means the same behind a backslash in both notations. -/
theorem escaped?_of_json {e d : Char} (hd : Json.escaped? e = some d) :
    isBreak e = false ∧ ∀ x, escaped? e x = some (d, x) := by
  have hmem := mem_of_escaped? hd
  simp only [List.mem_cons, Prod.mk.injEq, List.not_mem_nil, or_false] at hmem
  obtain ⟨rfl, rfl⟩ | ⟨rfl, rfl⟩ | ⟨rfl, rfl⟩ | ⟨rfl, rfl⟩ | ⟨rfl, rfl⟩ | ⟨rfl, rfl⟩ | ⟨rfl, rfl⟩
    | ⟨rfl, rfl⟩ := hmem <;> exact ⟨by decide, fun _ => rfl⟩

/-- No hexadecimal digit breaks a line. -/
theorem isBreak_of_hexDigit? {n : Nat} (hn : Json.hexDigit? c = some n) : isBreak c = false := by
  by_contra hbreak
  simp only [isBreak, Bool.not_eq_false, Bool.or_eq_true, decide_eq_true_eq] at hbreak
  obtain (((rfl | rfl) | rfl) | rfl) | rfl := hbreak <;> exact absurd hn (by simp [Json.hexDigit?])

/-- No digit of a code breaks a line. -/
theorem isBreak_of_hex4? {h₁ h₂ h₃ h₄ : Char} {n : Nat}
    (hn : Json.hex4? (.char h₁) (.char h₂) (.char h₃) (.char h₄) = some n) :
    isBreak h₁ = false ∧ isBreak h₂ = false ∧ isBreak h₃ = false ∧ isBreak h₄ = false := by
  obtain ⟨n₁, hn₁, hn⟩ := Option.bind_eq_some_iff.mp hn
  obtain ⟨n₂, hn₂, hn⟩ := Option.bind_eq_some_iff.mp hn
  obtain ⟨n₃, hn₃, hn⟩ := Option.bind_eq_some_iff.mp hn
  obtain ⟨n₄, hn₄, -⟩ := Option.bind_eq_some_iff.mp hn
  exact ⟨isBreak_of_hexDigit? hn₁, isBreak_of_hexDigit? hn₂, isBreak_of_hexDigit? hn₃,
    isBreak_of_hexDigit? hn₄⟩

/-- Four digits are read as the code point that they write. -/
theorem hexNumber?_of_json {h₁ h₂ h₃ h₄ : Char} {n : Nat}
    (hn : Json.hex4? (.char h₁) (.char h₂) (.char h₃) (.char h₄) = some n)
    (index line column : Nat) (cs : List Char) :
    hexNumber? 4 0 (Input.locate index line column (h₁ :: h₂ :: h₃ :: h₄ :: cs))
      = some (n, Input.locate (index + 4) line (column + 4) cs) := by
  obtain ⟨hbreak₁, hbreak₂, hbreak₃, hbreak₄⟩ := isBreak_of_hex4? hn
  rw [locate_cons hbreak₁, locate_cons hbreak₂, locate_cons hbreak₃, locate_cons hbreak₄]
  obtain ⟨n₁, hn₁, hn⟩ := Option.bind_eq_some_iff.mp hn
  obtain ⟨n₂, hn₂, hn⟩ := Option.bind_eq_some_iff.mp hn
  obtain ⟨n₃, hn₃, hn⟩ := Option.bind_eq_some_iff.mp hn
  obtain ⟨n₄, hn₄, hn⟩ := Option.bind_eq_some_iff.mp hn
  obtain rfl := Option.some.inj hn
  -- Both notations add up the digits in the same way.
  simp only [Json.hexSymbol?] at hn₁ hn₂ hn₃ hn₄
  simp [hexNumber?, hn₁, hn₂, hn₃, hn₄]

/-- JSON reads the code of a character as this character. -/
theorem readText_code {h₁ h₂ h₃ h₄ : Char} {n : Nat} {d : Char}
    (hn : Json.hex4? (.char h₁) (.char h₂) (.char h₃) (.char h₄) = some n)
    (hd : charOf? n = some d) (cs : List Char) :
    Json.readText (symbols ('\\' :: 'u' :: h₁ :: h₂ :: h₃ :: h₄ :: cs))
      = Json.push d (Json.readText (symbols cs)) := by
  -- A code is that of a character unless it is half of a surrogate pair or too great.
  unfold charOf? at hd
  split at hd
  · next hrange =>
    obtain rfl := Option.some.inj hd
    simp only [symbols, List.map_cons]
    rw [Json.readText.eq_def]
    simp only [Char.reduceEq, if_false, ne_eq, not_true_eq_false, hn]
    rw [if_pos (hrange.imp_right And.left)]
  · exact absurd hd (by simp)

/-- One step of the reader, at the next character of the input. -/
theorem readDouble_cons (fuel : Nat) (x : Located) (s : Input) : readDouble (fuel + 1) (x :: s)
    = (if Input.atDocumentMark (x :: s) then none
    else if isSpace x.char then do
      let (g, rest) ← Gap.read 0 false (x :: s)
      prepend g.text (readDouble fuel rest)
    else if x.char = '"' then some ([], s)
    else if x.char ≠ '\\' then prepend [x.char] (readDouble fuel s)
    else match s with
      | [] => none
      | y :: s =>
        if isBreak y.char then do
          let (g, rest) ← Gap.read 0 true s
          prepend g.breaks (readDouble fuel rest)
        else do
          let (c, rest) ← escaped? y.char s
          prepend [c] (readDouble fuel rest)) :=
  rfl

/-- The reader of a quoted text has gone past characters of the text that YAML folds, and reads
`text` if it reads on from there. -/
def Advances (fuel : Nat) (cs r text : List Char) (s' : Input) : Prop :=
  ∃ s₁ cs₁ front g more, Shows s₁ cs₁ ∧ Skips cs₁ r
    ∧ (∀ t, Json.readText (symbols cs₁) = .ok (t, symbols r) →
      Json.readText (symbols cs) = .ok (front ++ t, symbols r))
    ∧ Folded front g ∧ text = g ++ more ∧ readDouble fuel s₁ = some (more, s')

section

variable {s₁ : Input} {cs₁ : List Char} {d : Char}

/-- A single character of the text is no different in YAML. -/
theorem Advances.char (hs₁ : Shows s₁ cs₁) (hcs₁ : Skips cs₁ r)
    (hread : Json.readText (symbols cs) = Json.push d (Json.readText (symbols cs₁)))
    (h : prepend [d] (readDouble fuel s₁) = some (text, s')) : Advances fuel cs r text s' := by
  obtain ⟨⟨more, rest⟩, hmore, h⟩ := Option.map_eq_some_iff.mp h
  obtain ⟨rfl, rfl⟩ := Prod.mk.inj h
  refine ⟨s₁, cs₁, [d], [d], more, hs₁, hcs₁, fun t ht => ?_, .inl rfl, rfl, hmore⟩
  rw [hread, ht]
  rfl

/-- White space is a gap, and the text goes on behind it. -/
theorem Advances.gap {g : Gap} {rest : Input} (hs : Shows s cs) (hcs : Skips cs r)
    (hgap : Gap.read 0 false s = some (g, rest))
    (h : prepend g.text (readDouble fuel rest) = some (text, s')) :
    Advances fuel cs r text s' := by
  obtain ⟨⟨more, rest'⟩, hmore, h⟩ := Option.map_eq_some_iff.mp h
  obtain ⟨rfl, rfl⟩ := Prod.mk.inj h
  obtain ⟨front, cs', rfl, hrest, hskips, hcovers, hreads⟩ := gap_skips hs hcs hgap
  exact ⟨rest, cs', front, g.text, more, hrest, hskips, hreads, hcovers.folded, rfl, hmore⟩

/-- A short escape of JSON is one of YAML. -/
theorem Advances.escape {e : Char} (hs : Shows s cs) (hcs : Skips cs r) (he : e ≠ 'u')
    (hd : Json.escaped? e = some d)
    (h : ((escaped? e s).bind fun x => prepend [x.1] (readDouble fuel x.2)) = some (text, s')) :
    Advances fuel ('\\' :: e :: cs) r text s' := by
  rw [(escaped?_of_json hd).2] at h
  exact .char hs hcs (Json.readText_escape he hd _) h

/-- The code of a character is the same in YAML, which refuses all other codes. -/
theorem Advances.code {h₁ h₂ h₃ h₄ : Char} {n : Nat} (hs : Shows s (h₁ :: h₂ :: h₃ :: h₄ :: cs))
    (hcs : Skips cs r)
    (hn : Json.hex4? (.char h₁) (.char h₂) (.char h₃) (.char h₄) = some n)
    (h : ((escaped? 'u' s).bind fun x => prepend [x.1] (readDouble fuel x.2)) = some (text, s')) :
    Advances fuel ('\\' :: 'u' :: h₁ :: h₂ :: h₃ :: h₄ :: cs) r text s' := by
  obtain ⟨index, line, column, rfl⟩ := hs
  have hcode := hexNumber?_of_json hn index line column cs
  obtain ⟨⟨d, rest⟩, hescaped, h⟩ := Option.bind_eq_some_iff.mp h
  obtain ⟨⟨n', rest'⟩, hnumber, hescaped⟩ := Option.bind_eq_some_iff.mp hescaped
  obtain ⟨rfl, rfl⟩ := Prod.mk.inj (Option.some.inj (hcode.symm.trans hnumber))
  obtain ⟨d', hd, hescaped⟩ := Option.bind_eq_some_iff.mp hescaped
  obtain ⟨rfl, rfl⟩ := Prod.mk.inj (Option.some.inj hescaped)
  exact .char ⟨_, _, _, rfl⟩ hcs (readText_code hn hd _) h

end

/-- A step of the reader is the last one, at the closing quote, or goes on inside of the text. -/
theorem readDouble_succ (hs : Shows s cs) (hcs : Skips cs r)
    (h : readDouble (fuel + 1) s = some (text, s')) :
    (Shows s' r ∧ text = [] ∧ Json.readText (symbols cs) = .ok ([], symbols r))
      ∨ Advances fuel cs r text s' := by
  -- At the end of the input, and at the mark of a document, reading fails.
  rcases s with _ | ⟨x, s⟩
  · exact absurd h (by simp [readDouble])
  rw [readDouble_cons] at h
  split at h
  · exact absurd h (by simp)
  split at h
  · obtain ⟨⟨g, rest⟩, hgap, h⟩ := Option.bind_eq_some_iff.mp h
    exact .inr (.gap hs hcs hgap h)
  next hspace =>
  obtain ⟨c, cs, rfl, ⟨-, hc, hs'⟩ | ⟨hbreak, -⟩⟩ := hs.of_cons
  · rw [hc] at h
    -- What stands in the text for JSON decides which branch the reader takes.
    cases hcs with
    | quote =>
      rw [if_pos rfl] at h
      obtain ⟨rfl, rfl⟩ := Prod.mk.inj (Option.some.inj h)
      exact .inl ⟨hs', rfl, Json.readText_quote _⟩
    | char hquote hslash hcontrol hcs =>
      rw [if_neg hquote, if_pos hslash] at h
      exact .inr (.char hs' hcs (readText_char hquote hslash hcontrol _) h)
    | escape he hd hcs =>
      obtain ⟨hbreak, -⟩ := escaped?_of_json hd
      obtain ⟨y, s, rfl, rfl, hs₁⟩ := hs'.cons hbreak
      rw [if_neg (by decide), if_neg (by simp)] at h
      dsimp only at h
      rw [if_neg (by simp [hbreak])] at h
      exact .inr (.escape hs₁ hcs he hd h)
    | code hn hcs =>
      obtain ⟨y, s, rfl, hy, hs₁⟩ := hs'.cons (by decide)
      rw [if_neg (by decide), if_neg (by simp)] at h
      dsimp only at h
      rw [hy, if_neg (by decide)] at h
      exact .inr (.code hs₁ hcs hn h)
  · exact absurd (isSpace_of_isBreak hbreak) hspace

/-- **A quoted text of JSON, as far as YAML reads it**, ends where it does in JSON, and is the
same text unless a line break stands in it. -/
theorem readDouble_skips (hs : Shows s cs) (hcs : Skips cs r)
    (h : readDouble fuel s = some (text, s')) :
    Shows s' r ∧ ∃ t, Json.readText (symbols cs) = .ok (t, symbols r) ∧ Folded t text := by
  -- A step of the reader goes past some characters; the induction is on its steps.
  induction fuel generalizing s cs text with
  | zero => exact absurd h (by simp [readDouble])
  | succ fuel ih =>
    obtain ⟨hr, rfl, hread⟩ | ⟨s₁, cs₁, front, g, more, hs₁, hcs₁, hread, hfront, rfl, hmore⟩ :=
      readDouble_succ hs hcs h
    · exact ⟨hr, [], hread, .inl rfl⟩
    · obtain ⟨hr, t, ht, hfolded⟩ := ih hs₁ hcs₁ hmore
      exact ⟨hr, front ++ t, hread t ht, hfolded.append hfront⟩

/-! ### Numerals and words -/

/-- Whether a character can stand in a numeral or a word of JSON. -/
def isPlainChar (c : Char) : Bool :=
  c.isAlphanum || c ∈ ['-', '+', '.']

/-- A text with the looks of a numeral or of a word. -/
structure PlainText (ds : List Char) : Prop where
  chars : ∀ c ∈ ds, isPlainChar c = true
  start : ∃ c ds', ds = c :: ds' ∧ (c.isAlphanum = true
    ∨ c = '-' ∧ ∃ d ds'', ds' = d :: ds'' ∧ d.isAlphanum = true)

theorem plainText_null : PlainText ['n', 'u', 'l', 'l'] :=
  ⟨List.all_eq_true.mp rfl, _, _, rfl, .inl rfl⟩

theorem plainText_true : PlainText ['t', 'r', 'u', 'e'] :=
  ⟨List.all_eq_true.mp rfl, _, _, rfl, .inl rfl⟩

theorem plainText_false : PlainText ['f', 'a', 'l', 's', 'e'] :=
  ⟨List.all_eq_true.mp rfl, _, _, rfl, .inl rfl⟩

theorem isAlphanum_of_isDigit (h : c.isDigit = true) : c.isAlphanum = true := by
  rw [Char.isAlphanum, h, Bool.or_true]

/-- The characters of numerals are plain. -/
theorem isPlainChar_of_numeral (h : Json.isNumeralChar c = true) : isPlainChar c = true := by
  simp only [Json.isNumeralChar, List.mem_cons, List.not_mem_nil, or_false, Bool.or_eq_true,
    decide_eq_true_eq] at h
  obtain h | rfl | rfl | rfl | rfl | rfl := h
  · rw [isPlainChar, isAlphanum_of_isDigit h, Bool.true_or]
  all_goals rfl

/-- Numerals are plain: a digit stands in front, or behind a minus sign. -/
theorem plainText_numeral {n : Option Json.Number} (h : Json.NumberWritten n ds) :
    PlainText ds := by
  obtain ⟨m, hm, -⟩ := h
  obtain ⟨d, ds', heq, hd, hds'⟩ := hm.looks
  have hfirst : isPlainChar d = true := by rw [isPlainChar, isAlphanum_of_isDigit hd, Bool.true_or]
  have hrest : ∀ c ∈ ds', isPlainChar c = true := fun c hc => isPlainChar_of_numeral (hds' c hc)
  have hchars : ∀ c ∈ d :: ds', isPlainChar c = true := List.forall_mem_cons.mpr ⟨hfirst, hrest⟩
  obtain rfl | rfl := heq
  · exact ⟨hchars, d, ds', rfl, .inl (isAlphanum_of_isDigit hd)⟩
  · exact ⟨List.forall_mem_cons.mpr ⟨rfl, hchars⟩, '-', _, rfl,
      .inr ⟨rfl, d, ds', rfl, isAlphanum_of_isDigit hd⟩⟩

/-- None of the characters that end or break a plain scalar is one of a numeral or a word. -/
theorem isPlainChar_spec (h : isPlainChar c = true) :
    isSpace c = false ∧ c ≠ ':' ∧ c ≠ '#' ∧ isFlowMark c = false := by
  refine ⟨?_, ?_, ?_, ?_⟩
  · -- None of the characters that count as space is a letter, a digit or part of a number.
    by_contra hspace
    simp only [isSpace, isBlank, isBreak, Bool.not_eq_false, Bool.or_eq_true,
      decide_eq_true_eq] at hspace
    obtain (rfl | rfl) | (((rfl | rfl) | rfl) | rfl) | rfl := hspace <;> exact absurd h (by decide)
  · rintro rfl
    exact absurd h (by decide)
  · rintro rfl
    exact absurd h (by decide)
  · by_contra hmark
    simp only [isFlowMark, List.mem_cons, List.not_mem_nil, or_false, Bool.not_eq_false,
      decide_eq_true_eq] at hmark
    obtain rfl | rfl | rfl | rfl | rfl := hmark <;> exact absurd h (by decide)

/-- The mark of a document's start or end begins with a hyphen or a dot. -/
theorem atDocumentMark_of_ne {x : Located} (hminus : x.char ≠ '-') (hdot : x.char ≠ '.')
    (s : Input) : Input.atDocumentMark (x :: s) = false := by
  unfold Input.atDocumentMark
  split
  · next heq =>
    obtain ⟨rfl, -⟩ := List.cons.inj heq
    simp [hminus, hdot]
  · rfl

/-- A numeral or a word is not taken for such a mark. -/
theorem atDocumentMark_plain (hds : PlainText ds) (hs : Shows s (ds ++ r)) :
    Input.atDocumentMark s = false := by
  obtain ⟨hchars, c, ds', rfl, hstart⟩ := hds
  obtain ⟨hc, hds'⟩ := List.forall_mem_cons.mp hchars
  obtain ⟨x, s, rfl, rfl, hs₁⟩ := hs.cons (isBreak_of_not_isSpace (isPlainChar_spec hc).1)
  obtain hstart | ⟨hx, d, ds'', rfl, hd⟩ := hstart
  · -- A letter or digit is neither a hyphen nor a dot.
    have hminus : x.char ≠ '-' := fun h => absurd hstart (by rw [h]; decide)
    have hdot : x.char ≠ '.' := fun h => absurd hstart (by rw [h]; decide)
    exact atDocumentMark_of_ne hminus hdot s
  · -- Behind a minus sign stands a letter or digit, so there are no three hyphens.
    obtain ⟨hd', -⟩ := List.forall_mem_cons.mp hds'
    obtain ⟨y, s, rfl, rfl, -⟩ := hs₁.cons (isBreak_of_not_isSpace (isPlainChar_spec hd').1)
    have hne : y.char ≠ x.char := fun h => absurd hd (by rw [h, hx]; decide)
    unfold Input.atDocumentMark
    split
    · next heq =>
      obtain ⟨hx', heq⟩ := List.cons.inj heq
      obtain ⟨hy', -⟩ := List.cons.inj heq
      simp [← hx', ← hy', hne]
    · rfl

/-- Behind a value inside brackets, a comma or a closing bracket comes next. -/
def Followed (cs : List Char) : Prop :=
  ∃ c cs', dropSpace cs = c :: cs' ∧ c ∈ [',', ']', '\x7d']

/-- What follows a value is no white space of YAML. -/
theorem Followed.solid (h : Followed cs) : Solid cs := by
  obtain ⟨c, cs', heq, hc⟩ := h
  intro c' hc'
  rw [heq] at hc'
  obtain rfl := Option.some.inj hc'
  simp only [List.mem_cons, List.not_mem_nil, or_false] at hc
  obtain rfl | rfl | rfl := hc <;> rfl

/-- Right behind the value, white space or a mark comes next. -/
theorem Followed.exists_cons (h : Followed cs) (hs : Shows s cs) :
    ∃ x s', s = x :: s' ∧ (isSpace x.char = true ∨ isSpace x.char = false ∧ x.char ≠ ':'
      ∧ isFlowMark x.char = true) := by
  have hsolid := h.solid
  obtain ⟨c, cs', heq, hc⟩ := h
  rcases s with _ | ⟨x, s⟩
  · rw [hs.eq_nil] at heq
    exact absurd heq (by simp [dropSpace])
  · refine ⟨x, s, rfl, ?_⟩
    -- White space may stand in front of the mark that follows, or the mark itself does.
    cases hx : isSpace x.char with
    | true => exact .inl rfl
    | false =>
      rw [hs.dropSpace_eq hx] at heq
      obtain ⟨c', cs', rfl, ⟨-, rfl, -⟩ | ⟨hbreak, -⟩⟩ := hs.of_cons
      · obtain ⟨rfl, -⟩ := List.cons.inj heq
        simp only [List.mem_cons, List.not_mem_nil, or_false] at hc
        obtain hc | hc | hc := hc <;> exact .inr ⟨rfl, by rw [hc]; decide, by rw [hc]; decide⟩
      · rw [isSpace_of_isBreak hbreak] at hx
        exact absurd hx (by simp)

/-- A part of a plain scalar ends in front of a mark or white space. -/
theorem plainPart_followed (hds : ∀ c ∈ ds, isPlainChar c = true) (hr : Followed r)
    (hs : Shows s (ds ++ r)) : ∃ s', plainPart true s = some (ds, s') ∧ Shows s' r
      ∧ s.length = ds.length + s'.length := by
  induction ds generalizing s with
  | nil =>
    -- Both white space and a mark end the text.
    obtain ⟨x, s', rfl, hx | ⟨hspace, hcolon, hmark⟩⟩ := hr.exists_cons hs
    · exact ⟨x :: s', by simp [plainPart, hx], hs, (Nat.zero_add _).symm⟩
    · exact ⟨x :: s', by simp [plainPart, hspace, hcolon, hmark], hs, (Nat.zero_add _).symm⟩
  | cons c ds ih =>
    obtain ⟨hc, hrest⟩ := List.forall_mem_cons.mp hds
    obtain ⟨hspace, hcolon, -, hmark⟩ := isPlainChar_spec hc
    obtain ⟨x, s, rfl, rfl, hs₁⟩ := hs.cons (isBreak_of_not_isSpace hspace)
    obtain ⟨s', hpart, hs', hlength⟩ := ih hrest hs₁
    refine ⟨s', by simp [plainPart, hspace, hcolon, hmark, hpart, prepend], hs', ?_⟩
    rw [List.length_cons, List.length_cons, hlength, Nat.add_right_comm]

/-- Behind the gap that follows the value, nothing is left of the scalar. -/
theorem readPlain_end {g : Gap} (hr : Followed r) (hs : Shows s (dropSpace r)) :
    readPlain true 0 (fuel + 1) g s = some ⟨[], !g.breaks.isEmpty, s⟩ := by
  obtain ⟨c, r', heq, hc⟩ := hr
  -- None of the marks that may follow a value is one that a plain scalar may begin with.
  have hmark : isSpace c = false ∧ c ≠ '-' ∧ c ≠ '.' ∧ c ≠ ':' ∧ c ≠ '#'
      ∧ isFlowMark c = true := by
    simp only [List.mem_cons, List.not_mem_nil, or_false] at hc
    obtain rfl | rfl | rfl := hc <;> decide
  obtain ⟨hspace, hminus, hdot, hcolon, hnumber, hflow⟩ := hmark
  rw [heq] at hs
  obtain ⟨x, s, rfl, rfl, -⟩ := hs.cons (isBreak_of_not_isSpace hspace)
  have hpart : plainPart true (x :: s) = some ([], x :: s) := by
    simp [plainPart, hspace, hcolon, hflow]
  have hnext : (Input.atDocumentMark (x :: s) || Input.nextIs (· == '#') (x :: s)) = false := by
    rw [atDocumentMark_of_ne hminus hdot, Input.nextIs, Bool.false_or, beq_eq_false_iff_ne]
    exact hnumber
  rw [readPlain, hnext, if_neg (by decide), hpart]
  rfl

/-- **A numeral or a word of JSON** is a plain scalar of its own in YAML. -/
theorem readPlain_followed (fuel : Nat) (hds : PlainText ds) (hr : Followed r)
    (hs : Shows s (ds ++ r)) :
    ∃ scalar, readPlain true 0 (fuel + 2) {} s = some scalar ∧ scalar.text = ds
      ∧ scalar.rest.length < s.length
      ∧ ∃ r', Shows scalar.rest r' ∧ (r' = r ∨ r' = dropSpace r) := by
  obtain ⟨rest, hpart, hrest, hlength⟩ := plainPart_followed hds.chars hr hs
  have hdocument := atDocumentMark_plain hds hs
  obtain ⟨hchars, c, ds', rfl, -⟩ := hds
  obtain ⟨hspace, -, hnumber, -⟩ := isPlainChar_spec (hchars c List.mem_cons_self)
  obtain ⟨x, s, rfl, rfl, -⟩ := hs.cons (isBreak_of_not_isSpace hspace)
  -- The scalar begins here: there is no mark of a document and no comment.
  have hnext : (Input.atDocumentMark (x :: s) || Input.nextIs (· == '#') (x :: s)) = false := by
    rw [hdocument, Input.nextIs, Bool.false_or, beq_eq_false_iff_ne]
    exact hnumber
  have hshorter : rest.length < (x :: s).length := by
    rw [hlength, List.length_cons]
    omega
  rw [readPlain, hnext, if_neg (by decide), hpart]
  by_cases hend : Input.nextIs isSpace rest = false
  · -- A mark follows at once.
    refine ⟨⟨x.char :: ds', false, rest⟩, ?_, rfl, hshorter, r, hrest, .inl rfl⟩
    simp [hend, Gap.text]
  · -- The reader looks behind the gap for more of the scalar, and finds the mark.
    obtain ⟨g, rest', hgap, hle⟩ := exists_gap false rest
    have hrest' := gap_dropSpace hrest hr.solid hgap
    refine ⟨⟨x.char :: ds', !g.breaks.isEmpty, rest'⟩, ?_, rfl, hle.trans_lt hshorter,
      dropSpace r, hrest', .inr rfl⟩
    simp [hend, hgap, readPlain_end hr hrest', Gap.text]

end CompositeCrd.Yaml
