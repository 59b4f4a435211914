import CompositeCrd.Proofs.Yaml.Node
import CompositeCrd.Proofs.Yaml.Settings

/-!
# The node of written settings

The document of settings is one mapping, which has an entry for each word (`ofText?_settings`).
Texts become scalars with the characters that were written, and of how they were written a reader
learns just whether it was plain.
-/

namespace CompositeCrd.Yaml

open NodeReader (before)

variable {rest : List Token} {fuel : Nat} {block underKey : Bool} {t : Token}
  {style : ScalarStyle} {text : List Char}

/-! ### Nodes of settings -/

/-- The node of a text. -/
def textNode (cs : List Char) : Node :=
  .scalar none none (readStyle cs) cs

/-- The node of a setting. -/
def Setting.node : Setting → Node
  | .text s => textNode s.toList
  | .flag b => .scalar none none .plain (flagText b)
  | .texts ss => .list none none (ss.map fun s => textNode s.toList)

/-- The entry of a word and its setting. -/
def settingEntry (m : String × Setting) : Node × Node :=
  (.scalar none none .plain m.1.toList, m.2.node)

namespace NodeReader

/-! ### Collections set off by indentation -/

/-- The tokens that end the value of an entry. -/
inductive EndsValue : Token → Prop
  | key : EndsValue .key
  | blockEnd : EndsValue .blockEnd

/-- The tokens with which settings begin. -/
inductive BeginsSetting : Token → Prop
  | scalar (style : ScalarStyle) (text : List Char) : BeginsSetting (.scalar style text)
  | openBracket : BeginsSetting .openBracket
  | hyphen : BeginsSetting .hyphen

/-- The tokens of a setting begin with one that can begin a setting. -/
theorem exists_beginsSetting (s : Setting) : ∃ t toks, s.tokens = t :: toks ∧ BeginsSetting t := by
  cases s with
  | text s => exact ⟨_, _, rfl, .scalar _ _⟩
  | flag b => exact ⟨_, _, rfl, .scalar _ _⟩
  | texts ss => cases ss with
    | nil => exact ⟨_, _, rfl, .openBracket⟩
    | cons s ss => exact ⟨_, _, rfl, .hyphen⟩

/-- A hyphen under a key begins a list that is not set in. -/
theorem node_hyphen (r : NodeReader) :
    node (fuel + 1) block true (r.before (.hyphen :: rest))
      = (looseItems fuel (r.before (.hyphen :: rest))).bind fun x =>
        some (.list none none x.1, x.2) := by
  rw [node]
  rfl

/-- A mapping that starts is read entry by entry. -/
theorem node_mappingStart (r : NodeReader) :
    node (fuel + 1) true underKey (r.before (.mappingStart :: rest))
      = (entries fuel (r.before rest)).bind fun x => some (.mapping none none x.1, x.2) := by
  rw [node]
  rfl

/-- An item behind its hyphen, then the others. -/
theorem looseItems_scalar (r : NodeReader) :
    looseItems (fuel + 3) (r.before (.hyphen :: .scalar style text :: rest))
      = (looseItems (fuel + 2) (r.before rest)).bind fun x =>
        some (.scalar none none style text :: x.1, x.2) := by
  rw [looseItems]
  rfl

/-- The list ends where a key or the end of the mapping follows. -/
theorem looseItems_end (ht : EndsValue t) (r : NodeReader) :
    looseItems (fuel + 1) (r.before (t :: rest)) = some ([], r.before (t :: rest)) := by
  rw [looseItems]
  cases ht <;> rfl

/-- The entries end where the mapping does. -/
theorem entries_blockEnd (r : NodeReader) :
    entries (fuel + 1) (r.before (.blockEnd :: rest)) = some ([], r.before rest) := by
  rw [entries]
  rfl

/-- An entry: its key, its value, then the other entries. -/
theorem entries_key (ht : BeginsSetting t) (r : NodeReader) :
    entries (fuel + 3) (r.before (.key :: .scalar style text :: .value :: t :: rest))
      = (node (fuel + 1) true true (r.before (t :: rest))).bind fun x =>
        (entries (fuel + 2) x.2).bind fun y =>
          some ((.scalar none none style text, x.1) :: y.1, y.2) := by
  rw [entries]
  cases ht <;> rfl

/-! ### Settings -/

/-- The items of a list end where the next entry begins. -/
theorem looseItems_texts (ht : EndsValue t) (ss : List String) (hfuel : ss.length + 3 ≤ fuel)
    (r : NodeReader) :
    looseItems fuel (r.before (ss.flatMap itemTokens ++ t :: rest))
      = some (ss.map fun s => textNode s.toList, r.before (t :: rest)) := by
  induction ss generalizing fuel with
  | nil =>
    obtain ⟨fuel, rfl⟩ := Nat.exists_eq_add_of_le' hfuel
    exact looseItems_end ht r
  | cons s ss ih =>
    obtain ⟨fuel, rfl⟩ : ∃ n, fuel = n + 3 := ⟨fuel - 3, by omega⟩
    rw [List.length_cons] at hfuel
    rw [List.flatMap_cons, itemTokens, textToken, List.append_assoc, List.cons_append,
      List.singleton_append, looseItems_scalar, ih (by omega)]
    rfl

/-- Behind the value of an entry is the next, or the end of the mapping. -/
theorem exists_endsValue (ms : List (String × Setting)) (rest : List Token) :
    ∃ t toks, ms.flatMap entryTokens ++ .blockEnd :: rest = t :: toks ∧ EndsValue t := by
  cases ms with
  | nil => exact ⟨_, _, rfl, .blockEnd⟩
  | cons m ms => exact ⟨_, _, rfl, .key⟩

/-- **The tokens of a setting are read as its node.** -/
theorem node_setting (ht : EndsValue t) (s : Setting) (hfuel : s.tokens.length + 4 ≤ fuel)
    (r : NodeReader) :
    node fuel block true (r.before (s.tokens ++ t :: rest))
      = some (s.node, r.before (t :: rest)) := by
  obtain ⟨fuel, rfl⟩ : ∃ n, fuel = n + 2 := ⟨fuel - 2, by omega⟩
  cases s with
  | text s => exact node_scalar r
  | flag b => exact node_scalar r
  | texts ss => cases ss with
    | nil =>
      -- The empty list is the one that stands in brackets.
      rw [Setting.tokens, List.cons_append, List.singleton_append, node_openBracket,
        flowItems_closeBracket]
      rfl
    | cons s ss =>
      have hlength : (s :: ss).length ≤ (Setting.texts (s :: ss)).tokens.length :=
        length_le_flatMap fun _ => List.cons_ne_nil _ _
      have hitems : looseItems (fuel + 1) (r.before ((s :: ss).flatMap itemTokens ++ t :: rest))
          = some (_, r.before (t :: rest)) := looseItems_texts ht (s :: ss) (by omega) r
      exact (node_hyphen r).trans (congrArg (Option.bind · _) hitems)

/-- **The entries of a mapping are read one by one.** -/
theorem entries_settings (ms : List (String × Setting))
    (hfuel : (ms.flatMap entryTokens).length + 4 ≤ fuel) (r : NodeReader) :
    entries fuel (r.before (ms.flatMap entryTokens ++ .blockEnd :: rest))
      = some (ms.map settingEntry, r.before rest) := by
  induction ms generalizing fuel with
  | nil =>
    obtain ⟨fuel, rfl⟩ := Nat.exists_eq_add_of_le' hfuel
    exact entries_blockEnd r
  | cons m ms ih =>
    obtain ⟨fuel, rfl⟩ : ∃ n, fuel = n + 3 := ⟨fuel - 3, by omega⟩
    obtain ⟨t, toks, htoks, ht⟩ := exists_beginsSetting m.2
    rw [List.flatMap_cons, List.length_append] at hfuel
    have hlength : (entryTokens m).length = m.2.tokens.length + 3 := rfl
    -- The value ends at `u`, which begins whatever is behind this entry.
    obtain ⟨u, toks', hu, hends⟩ := exists_endsValue ms rest
    have hnode : node (fuel + 1) true true (r.before (m.2.tokens ++ u :: toks'))
        = some (m.2.node, r.before (u :: toks')) := node_setting hends m.2 (by omega) r
    rw [← hu, htoks, List.cons_append] at hnode
    rw [List.flatMap_cons, entryTokens, htoks]
    simp only [List.cons_append, List.append_assoc]
    rw [entries_key ht, hnode, Option.bind_some, ih (by omega)]
    rfl

end NodeReader

/-- **Settings are read as the mapping that they are.** -/
theorem ofText?_settings {ms : List (String × Setting)} (hne : ms ≠ [])
    (hms : ∀ m ∈ ms, Word m.1.toList) : Node.ofText? (document (settings ms))
      = some (.mapping none none (ms.map settingEntry)) := by
  let toks : List Token := .mappingStart :: (ms.flatMap entryTokens ++ [.blockEnd])
  let r₀ : NodeReader := { tokens := [], handles := standardHandles }
  have hlength : (ms.flatMap entryTokens).length + 4 ≤ 4 * toks.length + 3 := by
    rw [List.length_cons, List.length_append]
    omega
  have hroot : NodeReader.node (4 * toks.length + 4) true false (r₀.before toks)
      = some (.mapping none none (ms.map settingEntry), r₀.before []) :=
    (NodeReader.node_mappingStart r₀).trans (by rw [NodeReader.entries_settings ms hlength]; rfl)
  have htokens : Node.ofTokens? standardHandles false toks
      = some (.mapping none none (ms.map settingEntry), []) :=
    congrArg (Option.bind · _) hroot
  rw [Node.ofText?, stream?_settings hne hms]
  -- There are no directives, and the document has no mark.
  have hdirectives : directives false [] toks = some ([], toks) := by
    simp [toks, directives]
  change Node.ofStream? toks = _
  rw [Node.ofStream?, hdirectives]
  rw [if_neg (by simp [toks])]
  simp [toks, htokens]

end CompositeCrd.Yaml
