import CompositeCrd.Proofs.Json.Grammar

/-!
# The pretty layout

The pretty text of a value differs from the compact one in white space only, which stands in
front of items, members and closing brackets, and behind colons. So it is a text of the value's
echo too (`Value.Proper.prettyBack`), and what is written in this layout is read as what is written
in the compact one (`ofText_pretty`).
-/

namespace CompositeCrd.Json

open Document (isSpace skipSpace)

variable {v : Value} {items : List Value} {members : List (String × Value)} {s r : List Symbol}
  {cs : List Char} {level : Nat}

/-! ### White space -/

theorem skipSpace_of_isSpace {c : Char} (h : isSpace (.char c) = true) (s : List Symbol) :
    skipSpace (.char c :: s) = skipSpace s :=
  List.dropWhile_cons_of_pos h

/-- A line break and the indentation behind it are white space. -/
theorem skipSpace_newLine (level : Nat) (cs : List Char) :
    skipSpace (symbols (newLine level cs)) = skipSpace (symbols cs) := by
  have hindent : ∀ n,
      skipSpace (symbols (List.replicate n ' ' ++ cs)) = skipSpace (symbols cs) := by
    intro n
    induction n with
    | zero => rfl
    | succ n ih => exact (skipSpace_of_isSpace (by decide) _).trans ih
  exact (skipSpace_of_isSpace (by decide) _).trans (hindent (2 * level))

theorem Value.Spells.of_skipSpace {s' : List Symbol} (h : v.Spells s r)
    (heq : skipSpace s' = skipSpace s) : v.Spells s' r :=
  spells_skipSpace.mp (heq ▸ spells_skipSpace.mpr h)

/-- What follows an item ends a numeral: a comma or a line break. -/
theorem stops_prettyItems (items : List Value) (cs : List Char) (level level' : Nat) :
    Stops (symbols (prettyItems level items false (newLine level' (']' :: cs)))) := by
  cases items with
  | nil => exact stops_cons (by decide) (by decide)
  | cons v items => exact stops_cons (by decide) (by decide)

/-- The same behind the value of a member. -/
theorem stops_prettyMembers (members : List (String × Value)) (cs : List Char)
    (level level' : Nat) :
    Stops (symbols (prettyMembers level members false (newLine level' ('\x7d' :: cs)))) := by
  cases members with
  | nil => exact stops_cons (by decide) (by decide)
  | cons e members => exact stops_cons (by decide) (by decide)

/-! ### The pretty layout is a text of the echo -/

/-- The pretty text of the value is a text of its echo, wherever it stands. -/
def Value.PrettyBack (v : Value) : Prop :=
  ∀ level ⦃cs⦄, Stops (symbols cs) →
    v.echo.Spells (symbols (v.writePretty level cs)) (symbols cs)

/-- Items behind the first are read back with their line breaks. -/
theorem spells_prettyItems (h : ∀ v ∈ items, v.PrettyBack) (cs : List Char) (level' : Nat) :
    SpellsMoreItems (items.map Value.echo)
      (symbols (prettyItems level items false (newLine level' (']' :: cs)))) (symbols cs) := by
  induction items with
  | nil => exact (skipSpace_newLine _ _).trans (skipSpace_cons (by decide) _)
  | cons v items ih =>
    obtain ⟨hv, hitems⟩ := List.forall_mem_cons.mp h
    have hitem := hv level (stops_prettyItems items cs level level')
    exact ⟨_, _, skipSpace_cons (by decide) _, hitem.of_skipSpace (skipSpace_newLine _ _),
      ih hitems⟩

/-- The key of a member on a line of its own, and the colon behind it. -/
theorem skipSpace_prettyKey (k : String) (cs : List Char) :
    skipSpace (symbols (newLine level (writeText k cs)))
      = .char '"' :: (symbols (k.toList.flatMap escapeChar) ++ .char '"' :: symbols cs) := by
  rw [skipSpace_newLine, writeText_append]
  exact skipSpace_cons (by decide) _

/-- So are members. -/
theorem spells_prettyMembers (h : ∀ e ∈ members, e.2.PrettyBack) (cs : List Char) (level' : Nat) :
    SpellsMoreMembers (members.map fun e => (e.1, e.2.echo))
      (symbols (prettyMembers level members false (newLine level' ('\x7d' :: cs))))
      (symbols cs) := by
  induction members with
  | nil => exact (skipSpace_newLine _ _).trans (skipSpace_cons (by decide) _)
  | cons e members ih =>
    obtain ⟨k, v⟩ := e
    obtain ⟨hv, hmembers⟩ := List.forall_mem_cons.mp h
    have hvalue := hv level (stops_prettyMembers members cs level level')
    exact ⟨_, _, _, _, _, skipSpace_cons (by decide) _, skipSpace_prettyKey k _,
      readText_escaped k.toList _, skipSpace_cons (by decide) _,
      hvalue.of_skipSpace (skipSpace_of_isSpace (by decide) _), ih hmembers⟩

/-- A proper value is read back from its lines as its echo. -/
theorem Value.Proper.prettyBack (hv : v.Proper) : v.PrettyBack := by
  induction hv with
  | null => exact fun level cs h => Value.Proper.null.writtenBack h
  | bool b => exact fun level cs h => (Value.Proper.bool b).writtenBack h
  | number hn => exact fun level cs h => (Value.Proper.number hn).writtenBack h
  | string text => exact fun level cs h => (Value.Proper.string text).writtenBack h
  | @array items _ ih =>
    intro level cs _
    rw [Value.echo_array]
    -- Without items there is no line break between the brackets.
    cases items with
    | nil => exact ⟨_, skipSpace_cons (by decide) _, skipSpace_cons (by decide) _⟩
    | cons v items =>
      obtain ⟨hv, hitems⟩ := List.forall_mem_cons.mp ih
      have hitem := hv (level + 1) (stops_prettyItems items cs (level + 1) level)
      exact ⟨_, skipSpace_cons (by decide) _, _, hitem.of_skipSpace (skipSpace_newLine _ _),
        spells_prettyItems hitems cs level⟩
  | @object members _ ih =>
    intro level cs _
    rw [Value.echo_object]
    cases members with
    | nil => exact ⟨_, skipSpace_cons (by decide) _, skipSpace_cons (by decide) _⟩
    | cons e members =>
      obtain ⟨k, v⟩ := e
      -- The key, the colon with its blank, the value, then the other members.
      obtain ⟨hv, hmembers⟩ := List.forall_mem_cons.mp ih
      have hvalue := hv (level + 1) (stops_prettyMembers members cs (level + 1) level)
      exact ⟨_, skipSpace_cons (by decide) _, _, _, _, _, skipSpace_prettyKey k _,
        readText_escaped k.toList _, skipSpace_cons (by decide) _,
        hvalue.of_skipSpace (skipSpace_of_isSpace (by decide) _),
        spells_prettyMembers hmembers cs level⟩

/-! ### Pretty text with a text behind it -/

theorem newLine_append (level : Nat) (cs cs' : List Char) :
    newLine level (cs ++ cs') = newLine level cs ++ cs' := by
  simp [newLine]

theorem writeText_append_right (k : String) (cs cs' : List Char) :
    writeText k (cs ++ cs') = writeText k cs ++ cs' := by
  simp [writeText]

/-- What stands behind the pretty text of the value may be put there later. -/
def Value.PrettyAppend (v : Value) : Prop :=
  ∀ level cs cs', v.writePretty level (cs ++ cs') = v.writePretty level cs ++ cs'

/-- The lines of items are put in front of whatever follows. -/
theorem prettyItems_append (h : ∀ v ∈ items, v.PrettyAppend) (first : Bool) (cs cs' : List Char) :
    prettyItems level items first (cs ++ cs') = prettyItems level items first cs ++ cs' := by
  induction items generalizing first with
  | nil => rfl
  | cons v items ih =>
    obtain ⟨hv, hitems⟩ := List.forall_mem_cons.mp h
    rw [prettyItems, ih hitems, hv, newLine_append, prettyItems]
    cases first <;> rfl

/-- The lines of members are put in front of whatever follows. -/
theorem prettyMembers_append (h : ∀ e ∈ members, e.2.PrettyAppend) (first : Bool)
    (cs cs' : List Char) :
    prettyMembers level members first (cs ++ cs')
      = prettyMembers level members first cs ++ cs' := by
  induction members generalizing first with
  | nil => rfl
  | cons e members ih =>
    obtain ⟨k, v⟩ := e
    obtain ⟨hv, hmembers⟩ := List.forall_mem_cons.mp h
    have hvalue : ':' :: ' ' :: v.writePretty level (prettyMembers level members false cs ++ cs')
        = (':' :: ' ' :: v.writePretty level (prettyMembers level members false cs)) ++ cs' := by
      rw [hv]
      rfl
    rw [prettyMembers, ih hmembers, hvalue, writeText_append_right, newLine_append, prettyMembers]
    cases first <;> rfl

/-- The lines of a value are put in front of whatever follows. -/
theorem writePretty_append (v : Value) : v.PrettyAppend := by
  induction v using Value.induction with
  | null => exact fun _ _ _ => rfl
  | bool b => cases b <;> exact fun _ _ _ => rfl
  | number n => exact fun _ _ _ => (List.append_assoc _ _ _).symm
  | string s => exact fun _ _ _ => (List.append_assoc _ _ _).symm
  | array items ih =>
    intro level cs cs'
    cases items with
    | nil => rfl
    | cons v items =>
      rw [Value.writePretty, ← List.cons_append, newLine_append, prettyItems_append ih]
      rfl
  | object members ih =>
    intro level cs cs'
    cases members with
    | nil => rfl
    | cons e members =>
      rw [Value.writePretty, ← List.cons_append, newLine_append, prettyMembers_append ih]
      rfl

/-- **What is written in the pretty layout reads back** as what is written in the compact one, with
a line break behind it. -/
theorem ofText_pretty (hv : v.Proper) : Document.ofText (v.pretty ++ "\n") = v.echo.document := by
  have hlines : (v.pretty ++ "\n").toList = v.writePretty 0 ['\n'] := by
    rw [Value.pretty, String.toList_append, String.toList_ofList]
    exact (writePretty_append v 0 [] ['\n']).symm
  have hspells : v.echo.Spells (symbols (v.writePretty 0 ['\n'])) (symbols ['\n']) :=
    hv.prettyBack 0 (stops_cons (by decide) (by decide))
  rw [Document.ofText, hlines]
  exact ofSymbols_of_spells hspells (by decide)

end CompositeCrd.Json
