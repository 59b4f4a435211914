import CompositeCrd.Proofs.Yaml.Gap

/-!
# Written documents can be read as characters

Whatever a value holds, the writer puts printable characters into its document and nothing else:
texts with other characters are written with escapes (`isPrintable_document`). So no document is
refused for its characters (`ofChars?_document`).
-/

namespace CompositeCrd.Yaml

open Input
open Json (Value Number)

variable {cs ds : List Char} {b : Bool} {c : Char} {indent : Nat}

/-- Only characters that are written as they are. -/
def Printable (cs : List Char) : Prop :=
  ∀ c ∈ cs, isPrintable c = true

instance : Decidable (Printable cs) :=
  List.decidableBAll (isPrintable · = true) cs

theorem printable_nil : Printable [] :=
  List.forall_mem_nil _

theorem Printable.cons (hc : isPrintable c = true) (h : Printable cs) : Printable (c :: cs) :=
  List.forall_mem_cons.mpr ⟨hc, h⟩

theorem Printable.append (h : Printable cs) (h' : Printable ds) : Printable (cs ++ ds) :=
  List.forall_mem_append.mpr ⟨h, h'⟩

/-- Blanks are printable. -/
theorem printable_spaces (n : Nat) : Printable (spaces n) := by
  intro c hc
  obtain rfl := List.eq_of_mem_replicate hc
  decide

/-- So is an indentation that may be left out. -/
theorem printable_indentation (b : Bool) (indent : Nat) :
    Printable (if b then spaces indent else []) := by
  cases b with
  | false => exact printable_nil
  | true => exact printable_spaces indent

/-! ### Texts -/

theorem Literate.toPrintable (h : Literate cs) : Printable cs :=
  h.printable

/-- Doubling the quotes and breaking the lines of a quoted text adds printable characters only. -/
theorem Printable.singleFrom (h : Printable cs) : Printable (singleFrom indent b cs) := by
  induction cs generalizing b with
  | nil => exact printable_indentation b indent
  | cons c cs ih =>
    obtain ⟨hc, hcs⟩ := List.forall_mem_cons.mp h
    rw [Yaml.singleFrom]
    -- A break is written with an indentation to come, a quote twice.
    split
    · exact .cons hc (ih hcs)
    · refine ((printable_indentation b indent).append ?_).append (ih hcs)
      split
      · exact .cons (by decide) (.cons (by decide) printable_nil)
      · exact .cons hc printable_nil

/-- So does setting in the lines of a block. -/
theorem Printable.literalLines (h : Printable cs) : Printable (literalLines indent b cs) := by
  induction cs generalizing b with
  | nil => exact printable_nil
  | cons c cs ih =>
    obtain ⟨hc, hcs⟩ := List.forall_mem_cons.mp h
    rw [Yaml.literalLines]
    split
    · exact .cons hc (ih hcs)
    · exact (printable_indentation b indent).append (.cons hc (ih hcs))

theorem printable_of_isInline (h : ∀ c ∈ cs, isInline c = true) : Printable cs :=
  fun c hc => isPrintable_of_isInline (h c hc)

theorem printable_quoted (indent : Nat) (h : Printable cs) : Printable (single indent cs) :=
  .cons (by decide) (h.singleFrom.append (.cons (by decide) printable_nil))

theorem printable_literal (indent : Nat) (h : Printable cs) : Printable (literal indent cs) := by
  have hfeed : Printable ['\n'] := .cons (by decide) printable_nil
  have hend : Printable (if Style.endsWith isBreak cs then [] else ['\n']) := by
    split
    · exact printable_nil
    · exact hfeed
  have hhints := printable_of_isInline (isInline_literalHints cs)
  exact .cons (by decide) ((hhints.append (.cons (by decide) h.literalLines)).append hend)

/-- Whatever is in a text, it is written printably: what is not printable is escaped. -/
theorem printable_text (indent : Nat) (cs : List Char) : Printable (text indent cs) := by
  have hfeed : Printable ['\n'] := .cons (by decide) printable_nil
  have hcs : Style.choose cs ≠ .double → Printable cs := fun h => (literate_of_choose h).printable
  unfold text
  cases hstyle : Style.choose cs with
  | plain => exact (hcs (by simp [hstyle])).append hfeed
  | single => exact (printable_quoted indent (hcs (by simp [hstyle]))).append hfeed
  | double => exact (printable_of_isInline (isInline_double cs)).append hfeed
  | literal => exact printable_literal indent (hcs (by simp [hstyle]))

/-- The same for the key of an entry. -/
theorem printable_key (indent : Nat) (cs : List Char) : Printable (key indent cs) := by
  have hcs : Style.choose cs ≠ .double → Printable cs := fun h => (literate_of_choose h).printable
  unfold key
  cases hstyle : Style.choose cs with
  | plain => exact hcs (by simp [hstyle])
  | single => exact printable_quoted indent (hcs (by simp [hstyle]))
  | double | literal => exact printable_of_isInline (isInline_double cs)

/-! ### Values -/

/-- The characters of a numeral are printable. -/
theorem isPrintable_of_isNumeralChar (h : Json.isNumeralChar c = true) : isPrintable c = true := by
  simp only [Json.isNumeralChar, List.mem_cons, List.not_mem_nil, or_false, Bool.or_eq_true,
    decide_eq_true_eq] at h
  rcases h with h | rfl | rfl | rfl | rfl | rfl
  · -- Digits are among the visible characters of ASCII.
    simp only [Char.isDigit, Bool.and_eq_true, decide_eq_true_eq, ge_iff_le, UInt32.le_iff_toNat_le]
      at h
    simp only [isPrintable, Bool.or_eq_true, Bool.and_eq_true, decide_eq_true_eq]
    exact .inl (.inl (.inr ⟨(by decide : 0x20 ≤ 48).trans h.1, h.2.trans (by decide)⟩))
  all_goals decide

/-- Every scalar is written printably. -/
theorem printable_scalar (indent : Nat) (v : Value) : Printable (scalar indent v) := by
  -- Words and brackets are checked as they are.
  have hfeed : Printable ['\n'] := .cons (by decide) printable_nil
  cases v with
  | null => exact (by decide : Printable "null\n".toList)
  | bool b =>
    cases b with
    | true => exact (by decide : Printable "true\n".toList)
    | false => exact (by decide : Printable "false\n".toList)
  | number n =>
    exact Printable.append (fun c hc => isPrintable_of_isNumeralChar (isNumeralChar_number n c hc))
      hfeed
  | string s => exact printable_text indent s.toList
  | array => exact (by decide : Printable "[]\n".toList)
  | object => exact (by decide : Printable "\x7b\x7d\n".toList)

mutual

/-- **What is written of a value is printable.** -/
theorem printable_child : ∀ (v : Value) (indent : Nat) (marked : Bool),
    Printable (child indent marked v)
  | .array (v :: vs), indent, marked => by
    rw [child]
    cases marked with
    | true => exact .cons (by decide) (printable_items (v :: vs) _ _)
    | false => exact .cons (by decide) (printable_items (v :: vs) _ _)
  | .object (m :: ms), indent, marked => by
    rw [child]
    cases marked with
    | true => exact .cons (by decide) (printable_members (m :: ms) _ _)
    | false => exact .cons (by decide) (printable_members (m :: ms) _ _)
  | .null, _, _ | .bool _, _, _ | .number _, _, _ | .string _, _, _ | .array [], _, _
  | .object [], _, _ => by
    rw [child_of_isFlat rfl]
    exact .cons (by decide) (printable_scalar _ _)

/-- The entries of a list are written printably. -/
theorem printable_items : ∀ (vs : List Value) (indent : Nat) (b : Bool),
    Printable (items indent b vs)
  | [], _, _ => printable_nil
  | v :: vs, indent, b => by
    rw [items]
    exact ((printable_indentation b indent).append
      (.cons (by decide) (printable_child v indent true))).append (printable_items vs indent true)

/-- The entries of a mapping are written printably. -/
theorem printable_members : ∀ (ms : List (String × Value)) (indent : Nat) (b : Bool),
    Printable (members indent b ms)
  | [], _, _ => printable_nil
  | (k, v) :: ms, indent, b => by
    rw [members]
    refine ((printable_indentation b indent).append ?_).append (printable_members ms indent true)
    split
    · exact (printable_key _ _).append (.cons (by decide) (printable_child v indent false))
    · refine .cons (by decide) (.cons (by decide) ?_)
      exact ((printable_text _ _).append (printable_spaces indent)).append
        (.cons (by decide) (printable_child v indent true))

end

/-- **A document is printable.** -/
theorem printable_document (v : Value) : Printable (document v) := by
  cases v with
  | array vs => cases vs with
    | nil => exact printable_scalar 2 (.array [])
    | cons v vs => exact printable_items (v :: vs) 0 true
  | object ms => cases ms with
    | nil => exact printable_scalar 2 (.object [])
    | cons m ms => exact printable_members (m :: ms) 0 true
  | null => exact printable_scalar 2 .null
  | bool b => exact printable_scalar 2 (.bool b)
  | number n => exact printable_scalar 2 (.number n)
  | string s => exact printable_scalar 2 (.string s)

/-- No document is refused for its characters. -/
theorem ofChars?_document (v : Value) :
    ofChars? (document v) = some (locate 0 0 0 (document v)) := by
  refine if_pos (List.all_eq_true.mpr fun c hc => ?_)
  exact isAllowed_of_isPrintable (printable_document v c hc)

end CompositeCrd.Yaml
