import CompositeCrd.Proofs.Yaml.Stream
import CompositeCrd.Yaml.Node

/-!
# The nodes of a JSON document

The node of a JSON document mirrors its tree (`Tree.Mirrors`): nulls, truth values and numbers
are plain scalars, texts are quoted ones, and nothing has an anchor or a tag.

Here it shows why a key must be marked by a token of its own: without one the key would count
as an entry with no value, and the colon behind it has no place between two entries
(`flowEntries_unmarked`). So the degree of freedom in the tokens of a tree leaves none in its
node (`ofText?_written`).
-/

namespace CompositeCrd

open Yaml (Node Token ReadAs NodeReader Tag Yields)

namespace Json

mutual

/-- The node says what the tree says. In a document that is surely passable, its numerals are
admitted. -/
def Tree.Mirrors (ok : List Char → Bool) (sure : Prop) : Tree → Node → Prop
  | .null, n => n = .scalar none none .plain ['n', 'u', 'l', 'l']
  | .bool true, n => n = .scalar none none .plain ['t', 'r', 'u', 'e']
  | .bool false, n => n = .scalar none none .plain ['f', 'a', 'l', 's', 'e']
  | .number m, n => ∃ ds, NumberWritten m ds ∧ (sure → ok ds = true)
      ∧ n = .scalar none none .plain ds
  | .string s, n => ∃ t text, s = some (String.ofList t) ∧ ReadAs sure t text
      ∧ n = .scalar none none .other text
  | .array items, n => ∃ ns, n = .list none none ns ∧ items.Mirrors ok sure ns
  | .object members, n => ∃ es, n = .mapping none none es ∧ members.Mirrors ok sure es
  | .broken _ _, _ => False

/-- The nodes say what the items say. -/
def Items.Mirrors (ok : List Char → Bool) (sure : Prop) : Items → List Node → Prop
  | .closed, ns => ns = []
  | .broken _, _ => False
  | .item t rest, ns => ∃ n ns', ns = n :: ns' ∧ t.Mirrors ok sure n ∧ rest.Mirrors ok sure ns'

/-- The entries say what the members say. -/
def Members.Mirrors (ok : List Char → Bool) (sure : Prop) : Members → List (Node × Node) → Prop
  | .closed, es => es = []
  | .broken _, _ => False
  | .noKey _, _ => False
  | .badKey _ _, _ => False
  | .member key t rest, es => ∃ k text n es', es = (.scalar none none .other text, n) :: es'
      ∧ key = some (String.ofList k) ∧ ReadAs sure k text ∧ t.Mirrors ok sure n
      ∧ rest.Mirrors ok sure es'

end

end Json

namespace Yaml.NodeReader

open Json (Tree Items Members separator)

variable {r r' : NodeReader} {toks rest : List Token} {fuel : Nat} {first block underKey : Bool}
  {t : Token} {style : ScalarStyle} {text : List Char} {sure : Prop} {ok : List Char → Bool}

/-! ### One token -/

/-- The reader with these tokens before it. -/
def before (r : NodeReader) (toks : List Token) : NodeReader :=
  { r with tokens := toks }

/-- The tokens with which the values of a JSON document begin. -/
inductive BeginsValue : Token → Prop
  | scalar (style : ScalarStyle) (text : List Char) : BeginsValue (.scalar style text)
  | openBracket : BeginsValue .openBracket
  | openBrace : BeginsValue .openBrace

/-- The tokens of a tree begin with one that can begin a value. -/
theorem exists_beginsValue {tree : Tree} (h : tree.Tokens ok sure toks) :
    ∃ t toks', toks = t :: toks' ∧ BeginsValue t := by
  cases tree with
  | null => exact ⟨_, _, h, .scalar _ _⟩
  | bool b => cases b <;> exact ⟨_, _, h, .scalar _ _⟩
  | number n =>
    obtain ⟨ds, -, -, rfl⟩ := h
    exact ⟨_, _, rfl, .scalar _ _⟩
  | string s =>
    obtain ⟨t, text, -, -, rfl⟩ := h
    exact ⟨_, _, rfl, .scalar _ _⟩
  | array is =>
    obtain ⟨toks', rfl, -⟩ := h
    exact ⟨_, _, rfl, .openBracket⟩
  | object ms =>
    obtain ⟨toks', rfl, -⟩ := h
    exact ⟨_, _, rfl, .openBrace⟩
  | broken => exact h.elim

/-- A scalar is a node by itself. -/
theorem node_scalar (r : NodeReader) :
    node (fuel + 1) block underKey (r.before (.scalar style text :: rest))
      = some (.scalar none none style text, r.before rest) := by
  rw [node]
  rfl

/-- A bracket opens a list of items. -/
theorem node_openBracket (r : NodeReader) :
    node (fuel + 1) block underKey (r.before (.openBracket :: rest))
      = (flowItems fuel true (r.before rest)).bind fun x =>
        some (.list none none x.1, x.2) := by
  rw [node]
  rfl

/-- A brace opens a list of entries. -/
theorem node_openBrace (r : NodeReader) :
    node (fuel + 1) block underKey (r.before (.openBrace :: rest))
      = (flowEntries fuel true (r.before rest)).bind fun x =>
        some (.mapping none none x.1, x.2) := by
  rw [node]
  rfl

/-- The list ends at its closing bracket. -/
theorem flowItems_closeBracket (r : NodeReader) :
    flowItems (fuel + 1) first (r.before (.closeBracket :: rest)) = some ([], r.before rest) := by
  rw [flowItems]
  cases first <;> rfl

/-- An item is read behind its separator, then the others. -/
theorem flowItems_item (ht : BeginsValue t) (r : NodeReader) :
    flowItems (fuel + 1) first (r.before (separator first ++ t :: rest))
      = (node fuel false false (r.before (t :: rest))).bind fun x =>
        (flowItems fuel false x.2).bind fun y => some (x.1 :: y.1, y.2) := by
  rw [flowItems]
  cases first <;> cases ht <;> rfl

/-- The entries end at their closing brace. -/
theorem flowEntries_closeBrace (r : NodeReader) :
    flowEntries (fuel + 1) first (r.before (.closeBrace :: rest)) = some ([], r.before rest) := by
  rw [flowEntries]
  cases first <;> rfl

/-- An entry whose key is marked: the key, the value, then the other entries. -/
theorem flowEntries_marked (ht : BeginsValue t) (r : NodeReader) :
    flowEntries (fuel + 3) first
        (r.before (separator first ++ .key :: .scalar style text :: .value :: t :: rest))
      = (node (fuel + 1) false false (r.before (t :: rest))).bind fun x =>
        (flowEntries (fuel + 2) false x.2).bind fun y =>
          some ((.scalar none none style text, x.1) :: y.1, y.2) := by
  rw [flowEntries]
  cases first <;> cases ht <;> rfl

/-- Reading a marked entry takes three calls. -/
theorem flowEntries_marked_eq_none (hfuel : fuel < 3) (r : NodeReader) :
    flowEntries fuel first (r.before (separator first ++ .key :: .scalar style text :: rest))
      = none := by
  -- The entries, the key and the value take a step each.
  rcases fuel with _ | _ | _ | fuel
  · rw [flowEntries]
    rfl
  · rw [flowEntries]
    cases first <;> rfl
  · rw [flowEntries]
    cases first <;> rfl
  · omega

/-- A key that is not marked is an entry by itself, and there is no place for its colon. -/
theorem flowEntries_unmarked (r : NodeReader) :
    flowEntries fuel first (r.before (separator first ++ .scalar style text :: .value :: rest))
      = none := by
  -- Behind the key alone there should be a comma or the brace.
  rcases fuel with _ | _ | fuel
  · rw [flowEntries]
    rfl
  · rw [flowEntries]
    cases first <;> rfl
  · rw [flowEntries]
    cases first <;> rfl

/-! ### The nodes of a tree -/

/-- What is read is as `P` says, and the tokens `rest` are left. -/
def Leaves {α : Type} (r : NodeReader) (rest : List Token) (P : α → Prop) (x : α × NodeReader) :
    Prop :=
  P x.1 ∧ x.2 = r.before rest

/-- Without fuel no node is read. -/
theorem node_zero (r : NodeReader) : node 0 block underKey r = none := by
  rw [node]
  rfl

theorem flowItems_zero (r : NodeReader) : flowItems 0 first r = none := by
  rw [flowItems]
  rfl

theorem flowEntries_zero (r : NodeReader) : flowEntries 0 first r = none := by
  rw [flowEntries]
  rfl

/-- Items have at least the token that closes them. -/
theorem tokens_ne_nil_of_items {is : Items} (h : is.Tokens ok sure first toks) : toks ≠ [] := by
  cases is with
  | closed =>
    obtain rfl := h
    exact List.cons_ne_nil _ _
  | broken => exact h.elim
  | item t rest =>
    obtain ⟨ts₁, ts₂, rfl, hts₁, -⟩ := h
    obtain ⟨t, toks, rfl, -⟩ := exists_beginsValue hts₁
    cases first <;> simp

/-- So have members. -/
theorem tokens_ne_nil_of_members {ms : Members} (h : ms.Tokens ok sure first toks) : toks ≠ [] := by
  cases ms with
  | closed =>
    obtain rfl := h
    exact List.cons_ne_nil _ _
  | broken => exact h.elim
  | noKey => exact h.elim
  | badKey => exact h.elim
  | member key t rest =>
    obtain ⟨k, text, keyed, ts₁, ts₂, rfl, -⟩ := h
    cases first <;> simp

mutual

/-- Reading the tokens of a tree gives its node and uses up just these tokens. There is a node
if the tree's keys are surely marked and the fuel suffices for the tokens. -/
theorem node_mirrors : (tree : Tree) → ∀ {toks rest : List Token} {fuel : Nat}
    {block underKey : Bool} {r : NodeReader}, tree.Tokens ok sure toks →
    (sure → toks.length ≤ fuel) →
    Yields sure (node fuel block underKey (r.before (toks ++ rest)))
      (Leaves r rest (tree.Mirrors ok sure))
  -- Without fuel nothing is read; a tree has a token, so a sure reading has fuel.
  | tree, toks, rest, 0, block, underKey, r, htoks, hfuel => by
    obtain ⟨t, toks, rfl, -⟩ := exists_beginsValue htoks
    rw [node_zero]
    exact .none fun hsure => absurd (hfuel hsure) (Nat.not_succ_le_zero _)
  | .null, toks, rest, fuel + 1, block, underKey, r, htoks, _ => by
    obtain rfl := htoks
    rw [List.singleton_append, node_scalar]
    exact .some ⟨rfl, rfl⟩
  | .bool true, toks, rest, fuel + 1, block, underKey, r, htoks, _ => by
    obtain rfl := htoks
    rw [List.singleton_append, node_scalar]
    exact .some ⟨rfl, rfl⟩
  | .bool false, toks, rest, fuel + 1, block, underKey, r, htoks, _ => by
    obtain rfl := htoks
    rw [List.singleton_append, node_scalar]
    exact .some ⟨rfl, rfl⟩
  | .number m, toks, rest, fuel + 1, block, underKey, r, htoks, _ => by
    obtain ⟨ds, hds, hok, rfl⟩ := htoks
    rw [List.singleton_append, node_scalar]
    exact .some ⟨⟨ds, hds, hok, rfl⟩, rfl⟩
  -- A text is what its scalar is read as.
  | .string s, toks, rest, fuel + 1, block, underKey, r, htoks, _ => by
    obtain ⟨t, text, ht, hread, rfl⟩ := htoks
    rw [List.singleton_append, node_scalar]
    exact .some ⟨⟨t, text, ht, hread, rfl⟩, rfl⟩
  -- A bracket takes a token, so the items are left one step of fuel less.
  | .array is, toks, rest, fuel + 1, block, underKey, r, htoks, hfuel => by
    obtain ⟨toks, rfl, htoks⟩ := htoks
    rw [List.cons_append, node_openBracket]
    refine (flowItems_mirrors is htoks fun hsure => Nat.le_of_succ_le_succ (hfuel hsure)).bind ?_
    rintro ⟨ns, r₁⟩ ⟨hns, hr₁⟩
    exact .some ⟨⟨ns, rfl, hns⟩, hr₁⟩
  | .object ms, toks, rest, fuel + 1, block, underKey, r, htoks, hfuel => by
    obtain ⟨toks, rfl, htoks⟩ := htoks
    rw [List.cons_append, node_openBrace]
    refine (flowEntries_mirrors ms htoks fun hsure => Nat.le_of_succ_le_succ (hfuel hsure)).bind ?_
    rintro ⟨es, r₁⟩ ⟨hes, hr₁⟩
    exact .some ⟨⟨es, rfl, hes⟩, hr₁⟩
  | .broken f g, toks, rest, fuel + 1, block, underKey, r, htoks, _ => htoks.elim

/-- The same for the items of a list. -/
theorem flowItems_mirrors : (is : Items) → ∀ {toks rest : List Token} {fuel : Nat} {first : Bool}
    {r : NodeReader}, is.Tokens ok sure first toks → (sure → toks.length ≤ fuel) →
    Yields sure (flowItems fuel first (r.before (toks ++ rest)))
      (Leaves r rest (is.Mirrors ok sure))
  | is, toks, rest, 0, first, r, htoks, hfuel => by
    rw [flowItems_zero]
    have hlength := List.length_pos_of_ne_nil (tokens_ne_nil_of_items htoks)
    exact .none fun hsure => absurd (hfuel hsure) (Nat.not_le.mpr hlength)
  | .closed, toks, rest, fuel + 1, first, r, htoks, _ => by
    obtain rfl := htoks
    rw [List.singleton_append, flowItems_closeBracket]
    exact .some ⟨rfl, rfl⟩
  | .broken f, toks, rest, fuel + 1, first, r, htoks, _ => htoks.elim
  | .item tree is, toks, rest, fuel + 1, first, r, htoks, hfuel => by
    obtain ⟨ts₁, ts₂, rfl, hts₁, hts₂⟩ := htoks
    obtain ⟨t, ts₁, rfl, ht⟩ := exists_beginsValue hts₁
    -- The tokens of the item and those behind it are fewer than all, as the last ones close the
    -- list.
    have hfuel' (hsure : sure) : (t :: ts₁).length ≤ fuel ∧ ts₂.length ≤ fuel := by
      have hpos := List.length_pos_of_ne_nil (tokens_ne_nil_of_items hts₂)
      have hle := hfuel hsure
      simp only [List.length_append, List.length_cons] at hle ⊢
      omega
    rw [List.append_assoc, List.append_assoc, List.cons_append, flowItems_item ht,
      ← List.cons_append]
    -- The item is read, and then the others from what it leaves.
    refine (node_mirrors tree hts₁ fun hsure => (hfuel' hsure).1).bind ?_
    rintro ⟨n, r₁⟩ ⟨hn, rfl⟩
    refine (flowItems_mirrors is hts₂ fun hsure => (hfuel' hsure).2).bind ?_
    rintro ⟨ns, r₂⟩ ⟨hns, hr₂⟩
    exact .some ⟨⟨n, ns, rfl, hn, hns⟩, hr₂⟩

/-- The same for the members of an object. -/
theorem flowEntries_mirrors : (ms : Members) → ∀ {toks rest : List Token} {fuel : Nat}
    {first : Bool} {r : NodeReader}, ms.Tokens ok sure first toks → (sure → toks.length ≤ fuel) →
    Yields sure (flowEntries fuel first (r.before (toks ++ rest)))
      (Leaves r rest (ms.Mirrors ok sure))
  | ms, toks, rest, 0, first, r, htoks, hfuel => by
    rw [flowEntries_zero]
    have hlength := List.length_pos_of_ne_nil (tokens_ne_nil_of_members htoks)
    exact .none fun hsure => absurd (hfuel hsure) (Nat.not_le.mpr hlength)
  | .closed, toks, rest, fuel + 1, first, r, htoks, _ => by
    obtain rfl := htoks
    rw [List.singleton_append, flowEntries_closeBrace]
    exact .some ⟨rfl, rfl⟩
  | .broken f, toks, rest, fuel + 1, first, r, htoks, _ => htoks.elim
  | .noKey t, toks, rest, fuel + 1, first, r, htoks, _ => htoks.elim
  | .badKey f g, toks, rest, fuel + 1, first, r, htoks, _ => htoks.elim
  -- A key, its mark and its value take three tokens, so three steps of fuel.
  | .member key tree ms, toks, rest, fuel + 1, first, r, htoks, hfuel => by
    obtain ⟨k, text, keyed, ts₁, ts₂, rfl, hkeyed, hkey, hread, hts₁, hts₂⟩ := htoks
    cases keyed with
    | false =>
      -- A key without a mark is no key of an entry; a sure reading has marked it.
      simp only [Bool.false_eq_true, if_false, List.nil_append, List.append_assoc,
        List.cons_append]
      rw [flowEntries_unmarked]
      exact .none fun hsure => absurd (hkeyed hsure) (by simp)
    | true =>
      obtain ⟨t, ts₁, rfl, ht⟩ := exists_beginsValue hts₁
      have hfuel' (hsure : sure) : 3 + (t :: ts₁).length + ts₂.length ≤ fuel + 1 := by
        have hle := hfuel hsure
        simp only [if_true, List.length_append, List.length_cons, List.length_nil] at hle ⊢
        omega
      simp only [if_true, List.append_assoc, List.cons_append, List.nil_append]
      obtain hfew | ⟨fuel, rfl⟩ : fuel + 1 < 3 ∨ ∃ fuel', fuel = fuel' + 2 :=
        (Nat.lt_or_ge fuel 2).imp Nat.succ_lt_succ fun h => ⟨fuel - 2, by omega⟩
      · rw [flowEntries_marked_eq_none hfew]
        refine .none fun hsure => ?_
        have hle := hfuel' hsure
        omega
      rw [flowEntries_marked ht, ← List.cons_append]
      -- The value, and then the other entries.
      refine (node_mirrors tree hts₁ fun hsure => ?_).bind ?_
      · have hle := hfuel' hsure
        omega
      rintro ⟨n, r₁⟩ ⟨hn, rfl⟩
      refine (flowEntries_mirrors ms hts₂ fun hsure => ?_).bind ?_
      · have hle := hfuel' hsure
        omega
      rintro ⟨es, r₂⟩ ⟨hes, hr₂⟩
      exact .some ⟨⟨k, text, n, es, rfl, hkey, hread, hn, hes⟩, hr₂⟩

end

end Yaml.NodeReader

/-! ### Whole documents -/

/-- **The node of a JSON document mirrors its tree**, if YAML reads it at all, which it does if
the document is passable. The document is a list or an object. -/
theorem Yaml.Node.ofText?_written {t : Json.Tree} {cs cs' : List Char} {sure : Prop}
    {ok : List Char → Bool} (ht : t.Bracketed) (hwritten : t.Written cs cs')
    (hend : Json.dropSpace cs' = []) (hpassable : sure → Yaml.passable ok cs = true) :
    Yields sure (Node.ofText? cs) (t.Mirrors ok sure) := by
  refine (Yaml.Token.stream?_written ht hwritten hend hpassable).bind ?_
  intro toks htoks
  obtain ⟨first, toks', rfl, hfirst⟩ := NodeReader.exists_beginsValue htoks
  -- There are no directives, and the document has no mark.
  have hstream : Node.ofStream? (first :: toks')
      = (ofTokens? standardHandles false (first :: toks')).bind fun x =>
        if x.2.all (· = .documentEnd) then some x.1 else none := by
    rw [ofStream?]
    cases hfirst <;> simp [directives]
  rw [hstream]
  let r₀ : NodeReader := { tokens := [], handles := standardHandles }
  have hnode : Yields sure (NodeReader.node (4 * (first :: toks').length + 4) true false
      (r₀.before ((first :: toks') ++ []))) (NodeReader.Leaves r₀ [] _) :=
    NodeReader.node_mirrors _ htoks fun _ => by omega
  rw [List.append_nil] at hnode
  have hroot : Yields sure (ofTokens? standardHandles false (first :: toks')) fun x =>
      t.Mirrors ok sure x.1 ∧ x.2 = [] := by
    refine hnode.bind ?_
    rintro ⟨n, r⟩ ⟨hn, rfl⟩
    exact .some ⟨hn, rfl⟩
  refine hroot.bind ?_
  rintro ⟨n, rest⟩ ⟨hn, rfl⟩
  exact .some hn

end CompositeCrd
