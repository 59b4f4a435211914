import CompositeCrd.Yaml.Style

/-!
# Streams of documents

In a stream, a line of three hyphens stands between two documents. `documents` takes a stream
apart at these lines. What ends a line is a matter of opinion: for YAML there are five
characters that do (`isBreak`), for most other tools it is the line feed alone. So it is a
parameter here, of which `LineEnds` says what is needed.

If no line of a document is such a mark, the stream comes apart as it was put together exactly
when each document but the last ends with a line end (`documents_intercalate_iff`). Otherwise the
mark stands in the last line of the document in front of it, where it is none.
-/

namespace CompositeCrd.Yaml

variable {ends : Char → Bool} {cs ds l : List Char} {b : Bool}

/-- The lines of a text, each with the character that ends it. -/
def lines (ends : Char → Bool) : List Char → List (List Char)
  | [] => []
  | c :: cs =>
    if ends c then [c] :: lines ends cs
    else match lines ends cs with
      | [] => [[c]]
      | l :: ls => (c :: l) :: ls

/-- Three hyphens. -/
def mark : List Char :=
  ['-', '-', '-']

/-- Whether a line is exactly three hyphens. -/
def isMark (ends : Char → Bool) (line : List Char) : Bool :=
  line.takeWhile (fun c => !ends c) == mark

/-- The documents between the marks of a stream. -/
def documents (ends : Char → Bool) (stream : String) : List String :=
  ((lines ends stream.toList).splitOnP (isMark ends)).map fun ls => String.ofList ls.flatten

/-- Line feeds end lines, and whatever else does is a line break of YAML. -/
structure LineEnds (ends : Char → Bool) : Prop where
  feed : ends '\n' = true
  isBreak : ∀ c, ends c = true → isBreak c = true

theorem lineEnds_isBreak : LineEnds isBreak :=
  ⟨by decide, fun _ h => h⟩

theorem lineEnds_feed : LineEnds (· == '\n') := by
  refine ⟨by decide, fun c h => ?_⟩
  obtain rfl := beq_iff_eq.mp h
  decide

/-- What is no break ends no line. -/
theorem LineEnds.eq_false (h : LineEnds ends) {c : Char} (hc : Yaml.isBreak c = false) :
    ends c = false := by
  cases hends : ends c with
  | false => rfl
  | true => exact absurd (h.isBreak c hends) (by simp [hc])

/-! ### Ends -/

theorem endsWith_concat (ends : Char → Bool) (cs : List Char) (c : Char) :
    Style.endsWith ends (cs ++ [c]) = ends c := by
  simp [Style.endsWith]

/-- A text that ends so has a last character. -/
theorem exists_concat_of_endsWith (h : Style.endsWith ends cs = true) :
    ∃ ds c, cs = ds ++ [c] ∧ ends c = true := by
  rcases List.eq_nil_or_concat cs with rfl | ⟨ds, c, rfl⟩
  · exact absurd h (by simp [Style.endsWith])
  · rw [List.concat_eq_append, endsWith_concat] at h
    exact ⟨ds, c, List.concat_eq_append, h⟩

/-! ### Lines -/

theorem lines_cons_end {c : Char} (hc : ends c = true) :
    lines ends (c :: cs) = [c] :: lines ends cs := by
  rw [lines, if_pos hc]

/-- Any other character belongs to the first of the lines behind it. -/
theorem lines_cons {c : Char} (hc : ends c = false) : lines ends (c :: cs)
    = match lines ends cs with
      | [] => [[c]]
      | l :: ls => (c :: l) :: ls := by
  rw [lines, if_neg (by simp [hc])]

/-- The lines of a text together are the text. -/
theorem flatten_lines (ends : Char → Bool) (cs : List Char) : (lines ends cs).flatten = cs := by
  induction cs with
  | nil => rfl
  | cons c cs ih =>
    cases hc : ends c with
    | true => rw [lines_cons_end hc, List.flatten_cons, ih, List.singleton_append]
    | false =>
      rw [lines_cons hc]
      cases hlines : lines ends cs with
      | nil =>
        rw [hlines] at ih
        rw [← ih]
        rfl
      | cons l ls =>
        rw [hlines] at ih
        change c :: (l ++ ls.flatten) = c :: cs
        rw [← List.flatten_cons, ih]

/-- A text that is not empty has a line. -/
theorem lines_ne_nil (h : cs ≠ []) : lines ends cs ≠ [] := by
  intro hnil
  have hflatten := flatten_lines ends cs
  rw [hnil] at hflatten
  exact h hflatten.symm

/-- What ends with a line end is behind by whole lines. -/
theorem lines_append (h : cs = [] ∨ Style.endsWith ends cs = true) :
    lines ends (cs ++ ds) = lines ends cs ++ lines ends ds := by
  induction cs with
  | nil => rfl
  | cons c cs ih =>
    -- What ends the text is its last character, which is `c` only if there is no other.
    have hlast : Style.endsWith ends (c :: cs) = true := h.resolve_left (by simp)
    rw [List.cons_append]
    cases hcs : cs with
    | nil =>
      have hc : ends c = true := by
        rw [hcs] at hlast
        exact hlast
      rw [List.nil_append, lines_cons_end hc, lines_cons_end hc]
      rfl
    | cons d cs' =>
      have htail : Style.endsWith ends cs = true := by
        rw [hcs] at hlast ⊢
        exact hlast
      rw [← hcs]
      have happend := ih (.inr htail)
      cases hc : ends c with
      | true => rw [lines_cons_end hc, lines_cons_end hc, happend, List.cons_append]
      | false =>
        rw [lines_cons hc, lines_cons hc, happend]
        have hne : lines ends cs ≠ [] := lines_ne_nil (by simp [hcs])
        cases hlines : lines ends cs with
        | nil => exact absurd hlines hne
        | cons l ls => rfl

/-! ### Texts without marks -/

/-- **No line begins with a mark**, neither at the start of a text, if a line starts there, nor
behind a line break in it. -/
def Unmarked : (lineStart : Bool) → List Char → Prop
  | _, [] => True
  | lineStart, c :: cs => ¬(lineStart = true ∧ mark <+: c :: cs) ∧ Unmarked (isBreak c) cs

/-- The first line begins with a mark only if the text does. -/
theorem not_mark_of_head {ls : List (List Char)} (hlines : lines ends cs = l :: ls)
    (h : ¬mark <+: cs) : ¬mark <+: l := by
  intro hmark
  have hflatten := flatten_lines ends cs
  rw [hlines, List.flatten_cons] at hflatten
  exact h (hmark.trans ⟨ls.flatten, hflatten⟩)

/-- The first line counts if a line starts there, and all others do anyway. -/
theorem Unmarked.lines_unmarked (hends : LineEnds ends) (h : Unmarked b cs) :
    (b = true → ∀ l ∈ (lines ends cs).head?, ¬mark <+: l)
      ∧ ∀ l ∈ (lines ends cs).tail, ¬mark <+: l := by
  induction cs generalizing b with
  | nil => exact ⟨by simp [lines], by simp [lines]⟩
  | cons c cs ih =>
    obtain ⟨hfirst, hrest⟩ := h
    obtain ⟨ihhead, ihtail⟩ := ih hrest
    refine ⟨fun hb l hl => ?_, ?_⟩
    · -- The first line begins where the text begins.
      cases hlines : lines ends (c :: cs) with
      | nil => exact absurd hlines (lines_ne_nil (by simp))
      | cons l' ls =>
        rw [hlines] at hl
        obtain rfl : l' = l := by simpa using hl
        exact not_mark_of_head hlines fun hmark => hfirst ⟨hb, hmark⟩
    · cases hc : ends c with
      | true =>
        -- A line starts behind the end of this one.
        rw [lines_cons_end hc, List.tail_cons]
        cases hlines : lines ends cs with
        | nil => simp
        | cons l' ls =>
          rw [hlines] at ihhead ihtail
          rw [List.forall_mem_cons]
          exact ⟨ihhead (hends.isBreak c hc) l' rfl, ihtail⟩
      -- The line goes on, so the lines behind it are those of the rest.
      | false =>
        rw [lines_cons hc]
        cases hlines : lines ends cs with
        | nil => simp
        | cons l' ls =>
          rw [hlines] at ihtail
          exact ihtail

/-- No line of an unmarked text is a mark. -/
theorem Unmarked.isMark_eq_false (hends : LineEnds ends) (h : Unmarked true cs) :
    ∀ l ∈ lines ends cs, isMark ends l = false := by
  intro l hl
  obtain ⟨hhead, htail⟩ := h.lines_unmarked hends
  have hmark : ¬mark <+: l := by
    cases hlines : lines ends cs with
    | nil =>
      rw [hlines] at hl
      exact absurd hl List.not_mem_nil
    | cons l' ls =>
      rw [hlines] at hl hhead htail
      rcases List.mem_cons.mp hl with rfl | hl
      · exact hhead rfl l rfl
      · exact htail l hl
  cases hl' : isMark ends l with
  | false => rfl
  | true =>
    -- A line that is a mark begins with it.
    have heq : l.takeWhile (fun c => !ends c) = mark := eq_of_beq hl'
    exact absurd (heq ▸ List.takeWhile_prefix _) hmark

/-! ### Streams -/

/-- The line between two documents. -/
theorem lines_mark (hends : LineEnds ends) (ds : List Char) :
    lines ends ("---\n".toList ++ ds) = "---\n".toList :: lines ends ds := by
  have hhyphen : ends '-' = false := hends.eq_false (by decide)
  change lines ends ('-' :: '-' :: '-' :: '\n' :: ds) = ['-', '-', '-', '\n'] :: lines ends ds
  rw [lines_cons hhyphen, lines_cons hhyphen, lines_cons hhyphen, lines_cons_end hends.feed]

/-- The line between two documents is one. -/
theorem isMark_mark (hends : LineEnds ends) : isMark ends "---\n".toList = true := by
  have hhyphen : ends '-' = false := hends.eq_false (by decide)
  simp [isMark, mark, hhyphen, hends.feed]

/-- **A stream comes apart as it was put together**, if no line of a document is a mark and every
document but the last ends with a line end. -/
theorem documents_intercalate (hends : LineEnds ends) {texts : List String} (hne : texts ≠ [])
    (hunmarked : ∀ text ∈ texts, Unmarked true text.toList)
    (hclosed : ∀ text ∈ texts.dropLast, Style.endsWith ends text.toList = true) :
    documents ends ("---\n".intercalate texts) = texts := by
  induction texts with
  | nil => exact absurd rfl hne
  | cons text texts ih =>
    have hlines := (hunmarked text List.mem_cons_self).isMark_eq_false hends
    cases texts with
    | nil =>
      rw [String.intercalate_singleton, documents, List.splitOnP_eq_singleton hlines]
      simp [flatten_lines]
    | cons text' texts =>
      have hrest := ih (by simp) (fun t ht => hunmarked t (List.mem_cons_of_mem _ ht))
        fun t ht => hclosed t (List.mem_cons_of_mem _ ht)
      have hend := hclosed text List.mem_cons_self
      -- The lines of the first text come first, and the first mark is the one behind them.
      rw [documents] at hrest
      rw [String.intercalate_cons_cons, documents, String.toList_append, String.toList_append,
        List.append_assoc, lines_append (.inr hend), lines_mark hends,
        List.splitOnP_append_cons_of_forall_mem hlines _ (isMark_mark hends), List.map_cons, hrest,
        flatten_lines, String.ofList_toList]

/-! ### Documents that do not end a line -/

/-- Every line but the last has a line end. -/
theorem endsWith_of_mem_lines (hl : l ∈ (lines ends cs).dropLast) :
    Style.endsWith ends l = true := by
  induction cs generalizing l with
  | nil => exact absurd hl (by simp [lines])
  | cons c cs ih =>
    cases hc : ends c with
    -- The first line is this character; it has an end.
    | true =>
      rw [lines_cons_end hc] at hl
      cases hlines : lines ends cs with
      | nil =>
        rw [hlines] at hl
        exact absurd hl (by simp)
      | cons l' ls =>
        rw [hlines] at hl ih
        rw [List.dropLast_cons_of_ne_nil (List.cons_ne_nil l' ls), List.mem_cons] at hl
        rcases hl with rfl | hl
        · exact hc
        · exact ih hl
    | false =>
      rw [lines_cons hc] at hl
      cases hlines : lines ends cs with
      | nil =>
        rw [hlines] at hl
        exact absurd hl (by simp)
      | cons l' ls =>
        rw [hlines] at hl ih
        cases ls with
        | nil => exact absurd hl (by simp)
        | cons l'' ls =>
          rw [List.dropLast_cons_of_ne_nil (List.cons_ne_nil l'' ls)] at hl ih
          rcases List.mem_cons.mp hl with rfl | hl
          · -- The character is put in front of a line that has an end.
            have hend := ih List.mem_cons_self
            cases l' with
            | nil => exact absurd hend (by simp [Style.endsWith])
            | cons d l' => exact hend
          · exact ih (List.mem_cons_of_mem _ hl)

/-- What stands in front of a place where a list is split has no part of the last element. -/
theorem mem_dropLast_of_splitOnP {α : Type} {p : α → Bool} {xs chunk : List α}
    (h : chunk ∈ (xs.splitOnP p).dropLast) : ∀ x ∈ chunk, x ∈ xs.dropLast := by
  induction xs generalizing chunk with
  | nil => exact absurd h (by simp [List.splitOnP_nil])
  | cons x xs ih =>
    obtain ⟨first, chunks, hchunks⟩ := List.exists_cons_of_ne_nil (List.splitOnP_ne_nil p xs)
    rw [hchunks] at ih
    -- What is in the chunks of the rest is not last in the whole.
    have hmore : ∀ c ∈ (first :: chunks).dropLast, ∀ y ∈ c, y ∈ (x :: xs).dropLast := by
      intro c hc y hy
      have hmem := ih hc y hy
      rw [List.dropLast_cons_of_ne_nil]
      · exact List.mem_cons_of_mem _ hmem
      · exact fun hnil => absurd hmem (by simp [hnil])
    rw [List.splitOnP_cons_eq_if_modifyHead, hchunks] at h
    cases hx : p x with
    | true =>
      -- The list is split here, so the first chunk is empty.
      rw [if_pos hx, List.dropLast_cons_of_ne_nil (by simp), List.mem_cons] at h
      rcases h with rfl | h
      · exact fun y hy => absurd hy (by simp)
      · exact hmore _ h
    | false =>
      rw [if_neg (by simp [hx]), List.modifyHead_cons] at h
      cases chunks with
      | nil => exact absurd h (by simp)
      | cons second chunks =>
        rw [List.dropLast_cons_of_ne_nil (by simp)] at h hmore
        have hxs : xs ≠ [] := by
          rintro rfl
          exact absurd hchunks (by simp [List.splitOnP_nil])
        rcases List.mem_cons.mp h with rfl | h
        · -- The element is not the last one, since there is a place to split behind it.
          intro y hy
          rcases List.mem_cons.mp hy with rfl | hy
          · rw [List.dropLast_cons_of_ne_nil hxs]
            exact List.mem_cons_self
          · exact hmore first List.mem_cons_self y hy
        · exact hmore _ (List.mem_cons_of_mem _ h)

/-- A document in front of a mark ends with a line end, unless it is empty. -/
theorem endsWith_of_mem_documents {stream text : String}
    (h : text ∈ (documents ends stream).dropLast) (hne : text ≠ "") :
    Style.endsWith ends text.toList = true := by
  rw [documents, ← List.map_dropLast] at h
  obtain ⟨chunk, hchunk, rfl⟩ := List.mem_map.mp h
  rcases List.eq_nil_or_concat chunk with rfl | ⟨front, l, rfl⟩
  · exact absurd rfl hne
  · rw [List.concat_eq_append] at hchunk ⊢
    have hl := endsWith_of_mem_lines (mem_dropLast_of_splitOnP hchunk l (by simp))
    obtain ⟨ds, c, rfl, hc⟩ := exists_concat_of_endsWith hl
    rw [String.toList_ofList, List.flatten_append, List.flatten_singleton, ← List.append_assoc,
      endsWith_concat, hc]

/-- **A stream comes apart as it was put together exactly when every document but the last ends
with a line end**, if no line of a document is a mark. -/
theorem documents_intercalate_iff (hends : LineEnds ends) {texts : List String} (hne : texts ≠ [])
    (hunmarked : ∀ text ∈ texts, Unmarked true text.toList) (hfull : ∀ text ∈ texts, text ≠ "") :
    documents ends ("---\n".intercalate texts) = texts
      ↔ ∀ text ∈ texts.dropLast, Style.endsWith ends text.toList = true := by
  refine ⟨fun h text htext => ?_, documents_intercalate hends hne hunmarked⟩
  refine endsWith_of_mem_documents (h.symm ▸ htext) ?_
  exact hfull text (List.dropLast_subset texts htext)

end CompositeCrd.Yaml
