import CompositeCrd.Json.Writer
import CompositeCrd.Proofs.Json.NumeralText
import CompositeCrd.Proofs.Json.Echo
import Mathlib.Data.List.DropRight

/-!
# Texts of a value

`Value.Spells v s r` says that the document `s` starts with a text of `v`, with white space
between its tokens as anyone likes, and goes on with `r`. The relation follows the structure of
the value; what a quoted text or a numeral means is left to their readers.

Reading is complete for it: `value_of_spells` reads every text of a value as the value's tree.
The compact writer stays within it, but what it writes for a number may be a text of another one:
so what is written for `v` is a text of the echo of `v` (`Value.Proper.spells_write`), and is read
as that (`ofText_compact`). Conversely every tree that reading makes has proper numbers
(`ofSymbols_proper`).
-/

namespace CompositeCrd.Json

variable {s r t : List Symbol} {cs : List Char} {v : Value}

/-! ### Quoted texts -/

/-- A hexadecimal digit is read as what it was written for. -/
theorem hexDigit?_hexChar : ∀ n < 16, hexDigit? (hexChar n) = some n := by
  decide

/-- A quote ends a text. -/
theorem readText_quote (s : List Symbol) : readText (.char '"' :: s) = .ok ([], s) := by
  rw [readText.eq_def]
  exact if_pos rfl

/-- A backslash and a letter are read as the character that they stand for. -/
theorem readText_escape {e c : Char} (he : e ≠ 'u') (h : escaped? e = some c) (s : List Symbol) :
    readText (.char '\\' :: .char e :: s) = push c (readText s) := by
  rw [readText.eq_def]
  simp only [Char.reduceEq, if_false, ne_eq, not_true_eq_false]
  rw [if_pos he, h]

/-- An escaped character is read as the character. -/
theorem readText_escapeChar (c : Char) (s : List Symbol) :
    readText (symbols (escapeChar c) ++ s) = push c (readText s) := by
  -- The characters with an escape of their own come first, in the order of `escapeChar`.
  unfold escapeChar
  split
  · next h => subst h; exact readText_escape (by decide) (by decide) s
  split
  · next h => subst h; exact readText_escape (by decide) (by decide) s
  split
  · next h => subst h; exact readText_escape (by decide) (by decide) s
  split
  · next h => subst h; exact readText_escape (by decide) (by decide) s
  split
  · next h => subst h; exact readText_escape (by decide) (by decide) s
  split
  · next h => subst h; exact readText_escape (by decide) (by decide) s
  split
  · next h => subst h; exact readText_escape (by decide) (by decide) s
  split
  · next h =>
    -- Any other control character is written by its code, with four digits.
    have hhigh := hexDigit?_hexChar (c.toNat / 16) (by omega)
    have hlow := hexDigit?_hexChar (c.toNat % 16) (by omega)
    have hcode : c.toNat / 16 * 16 + c.toNat % 16 = c.toNat := by omega
    have hzero : hexDigit? '0' = some 0 := by decide
    have hhex : hex4? (.char '0') (.char '0') (.char (hexChar (c.toNat / 16)))
        (.char (hexChar (c.toNat % 16))) = some c.toNat := by
      simp [hex4?, hexSymbol?, hzero, hhigh, hlow, hcode]
    simp only [symbols, List.map_cons, List.map_nil, List.cons_append, List.nil_append]
    rw [readText]
    simp only [Char.reduceEq, if_false, ne_eq, not_true_eq_false, hhex]
    rw [if_pos (.inl (by omega)), Char.ofNat_toNat]
  · next hquote hslash _ _ _ _ _ hcontrol =>
    -- Every other character stands for itself.
    simp only [symbols, List.map_cons, List.map_nil, List.cons_append, List.nil_append]
    rw [readText.eq_def]
    simp only [if_neg hquote, if_pos hslash, if_neg hcontrol, ne_eq]

/-- **A quoted text is read as the text.** -/
theorem readText_escaped (cs : List Char) (s : List Symbol) :
    readText (symbols (cs.flatMap escapeChar) ++ .char '"' :: s) = .ok (cs, s) := by
  induction cs with
  | nil => exact readText_quote s
  | cons c cs ih =>
    rw [List.flatMap_cons, symbols, List.map_append, List.append_assoc, readText_escapeChar, ih]
    rfl

/-! ### Readers take from the front -/

theorem length_skipSpace_le (s : List Symbol) : (Document.skipSpace s).length ≤ s.length :=
  (List.dropWhile_sublist _).length_le

/-- A text with a character in front comes from a text that was read. -/
theorem push_eq_ok {c : Char} {x : Except Fault (List Char × List Symbol)}
    (h : push c x = .ok (cs, r)) : ∃ cs', x = .ok (cs', r) := by
  cases x with
  | ok p =>
    obtain ⟨rfl, rfl⟩ := Prod.mk.inj (Except.ok.inj h)
    exact ⟨_, rfl⟩
  | error f => exact absurd h (by simp [push])

/-- Nothing is read behind half of a surrogate pair. -/
theorem afterStray_ne_ok (x : Except Fault (List Char × List Symbol)) :
    afterStray x ≠ .ok (cs, r) := by
  unfold afterStray
  split <;> simp

/-- Reading a text leaves no more than there was. -/
theorem length_readText_le (h : readText s = .ok (cs, r)) : r.length ≤ s.length := by
  -- Each call takes a symbol or an escape from the front, and gives what the next one leaves.
  fun_induction readText s generalizing cs with
  | case2 => exact absurd h (afterStray_ne_ok _)
  | case3 =>
    obtain ⟨-, rfl⟩ := Prod.mk.inj (Except.ok.inj h)
    exact Nat.le_succ _
  | case5 | case8 | case11 | case19 =>
    rename_i ih
    obtain ⟨cs', h⟩ := push_eq_ok h
    have := ih h
    simp only [List.length_cons]
    omega
  | _ => simp at h

/-- A numeral begins with a minus sign or a digit, and is taken from the front. -/
theorem readNumeral_eq_ok {m : Numeral} (h : readNumeral s = .ok (m, r)) :
    (∃ c s', s = .char c :: s' ∧ (c = '-' ∨ c.isDigit = true)) ∧ r.length ≤ s.length := by
  obtain ⟨ds, rfl, hds⟩ := exists_of_readNumeral h
  refine ⟨?_, by rw [List.length_append]; exact Nat.le_add_left _ _⟩
  obtain ⟨d, ds', rfl | rfl, hd, -⟩ := hds.looks
  · exact ⟨d, _, rfl, .inr hd⟩
  · exact ⟨'-', _, rfl, .inl rfl⟩

/-! ### The grammar -/

open Document (isSpace skipSpace)

mutual

/-- **The document `s` starts with a text of the value and goes on with `r`.** -/
def Value.Spells : Value → List Symbol → List Symbol → Prop
  | .null, s, r => skipSpace s = symbols ['n', 'u', 'l', 'l'] ++ r
  | .bool true, s, r => skipSpace s = symbols ['t', 'r', 'u', 'e'] ++ r
  | .bool false, s, r => skipSpace s = symbols ['f', 'a', 'l', 's', 'e'] ++ r
  | .number n, s, r => ∃ m, readNumeral (skipSpace s) = .ok (m, r) ∧ m.value? = some n
  | .string text, s, r => ∃ s₁, skipSpace s = .char '"' :: s₁ ∧ readText s₁ = .ok (text.toList, r)
  | .array items, s, r => ∃ s₁, skipSpace s = .char '[' :: s₁ ∧ SpellsItems items s₁ r
  | .object members, s, r => ∃ s₁, skipSpace s = .char '\x7b' :: s₁ ∧ SpellsMembers members s₁ r

/-- What follows an opening bracket. -/
def SpellsItems : List Value → List Symbol → List Symbol → Prop
  | [], s, r => skipSpace s = .char ']' :: r
  | v :: items, s, r => ∃ t, v.Spells s t ∧ SpellsMoreItems items t r

/-- What follows an item. -/
def SpellsMoreItems : List Value → List Symbol → List Symbol → Prop
  | [], s, r => skipSpace s = .char ']' :: r
  | v :: items, s, r => ∃ s₁ t, skipSpace s = .char ',' :: s₁ ∧ v.Spells s₁ t
    ∧ SpellsMoreItems items t r

/-- What follows an opening brace. -/
def SpellsMembers : List (String × Value) → List Symbol → List Symbol → Prop
  | [], s, r => skipSpace s = .char '\x7d' :: r
  | (k, v) :: members, s, r => ∃ s₁ s₂ s₃ t, skipSpace s = .char '"' :: s₁
    ∧ readText s₁ = .ok (k.toList, s₂) ∧ skipSpace s₂ = .char ':' :: s₃ ∧ v.Spells s₃ t
    ∧ SpellsMoreMembers members t r

/-- What follows a member. -/
def SpellsMoreMembers : List (String × Value) → List Symbol → List Symbol → Prop
  | [], s, r => skipSpace s = .char '\x7d' :: r
  | (k, v) :: members, s, r => ∃ s₀ s₁ s₂ s₃ t, skipSpace s = .char ',' :: s₀
    ∧ skipSpace s₀ = .char '"' :: s₁ ∧ readText s₁ = .ok (k.toList, s₂)
    ∧ skipSpace s₂ = .char ':' :: s₃ ∧ v.Spells s₃ t ∧ SpellsMoreMembers members t r

end

/-- The first character of a value, which tells it from the end of a list. -/
theorem Value.Spells.head (h : v.Spells s r) :
    ∃ c s', skipSpace s = .char c :: s' ∧ c ≠ ']' := by
  -- The first character tells what kind of value there is, and none of them closes a list.
  cases v with
  | null => exact ⟨_, _, h, by decide⟩
  | bool b => cases b <;> exact ⟨_, _, h, by decide⟩
  | number n =>
    -- A numeral begins with a digit or a minus sign.
    obtain ⟨m, hm, -⟩ := h
    obtain ⟨⟨c, s', hs, hc⟩, -⟩ := readNumeral_eq_ok hm
    refine ⟨c, s', hs, ?_⟩
    rintro rfl
    exact absurd hc (by decide)
  | string text =>
    obtain ⟨s₁, hs, -⟩ := h
    exact ⟨_, _, hs, by decide⟩
  | array items =>
    obtain ⟨s₁, hs, -⟩ := h
    exact ⟨_, _, hs, by decide⟩
  | object members =>
    obtain ⟨s₁, hs, -⟩ := h
    exact ⟨_, _, hs, by decide⟩

/-- What `value` makes of each beginning of a document. -/
theorem value_word {fuel : Nat} {c : Char} {word : List Char} {t : Tree}
    (hs : skipSpace s = symbols (c :: word) ++ r)
    (hc : c = 'n' ∧ word = ['u', 'l', 'l'] ∧ t = .null
      ∨ c = 't' ∧ word = ['r', 'u', 'e'] ∧ t = .bool true
      ∨ c = 'f' ∧ word = ['a', 'l', 's', 'e'] ∧ t = .bool false) :
    Document.value (fuel + 1) s = (t, r) := by
  rw [Document.value, hs]
  obtain ⟨rfl, rfl, rfl⟩ | ⟨rfl, rfl, rfl⟩ | ⟨rfl, rfl, rfl⟩ := hc <;>
    simp [symbols, Document.keyword, Document.word]

/-- At a quote, a text is read. -/
theorem value_text {fuel : Nat} {s₁ : List Symbol} (hs : skipSpace s = .char '"' :: s₁)
    (h : readText s₁ = .ok (cs, r)) :
    Document.value (fuel + 1) s = (.string (some (String.ofList cs)), r) := by
  rw [Document.value, hs]
  simp [Document.text, h]

/-- At a numeral, a number is read. -/
theorem value_numeral {fuel : Nat} {m : Numeral} (h : readNumeral (skipSpace s) = .ok (m, r)) :
    Document.value (fuel + 1) s = (.number m.value?, r) := by
  obtain ⟨⟨c, s', hs, hc⟩, -⟩ := readNumeral_eq_ok h
  have hne : c ≠ 'n' ∧ c ≠ 't' ∧ c ≠ 'f' ∧ c ≠ '"' := by
    refine ⟨?_, ?_, ?_, ?_⟩ <;>
    · rintro rfl
      exact absurd hc (by decide)
  rw [hs] at h
  rw [Document.value, hs]
  simp [hne, hc, Document.numeral, h]

/-- At a bracket, the items of a list are read. -/
theorem value_array {fuel : Nat} {s₁ : List Symbol} (hs : skipSpace s = .char '[' :: s₁) :
    Document.value (fuel + 1) s
      = (.array (Document.items fuel s₁).1, (Document.items fuel s₁).2) := by
  rw [Document.value, hs]
  simp

/-- At a brace, the members of an object are read. -/
theorem value_object {fuel : Nat} {s₁ : List Symbol} (hs : skipSpace s = .char '\x7b' :: s₁) :
    Document.value (fuel + 1) s
      = (.object (Document.members fuel s₁).1, (Document.members fuel s₁).2) := by
  rw [Document.value, hs]
  simp

/-! ### Reading is complete -/

/-- The value is read from each of its texts, with fuel as `ofSymbols` gives it. -/
def Value.ReadBack (v : Value) : Prop :=
  ∀ ⦃s r : List Symbol⦄ (fuel : Nat), v.Spells s r → 4 * s.length + 4 ≤ fuel →
    Document.value fuel s = (v.tree, r) ∧ r.length ≤ s.length

variable {items : List Value} {members : List (String × Value)} {fuel : Nat}

theorem skipSpace_skipSpace (s : List Symbol) : skipSpace (skipSpace s) = skipSpace s :=
  List.dropWhile_idempotent isSpace s

/-- Behind a word there is no more than in front of it. -/
theorem length_le_of_word {word : List Char} (h : skipSpace s = symbols word ++ r) :
    r.length ≤ s.length := by
  have hle := length_skipSpace_le s
  rw [h, List.length_append] at hle
  omega

/-- Behind a character there is less than in front of the white space before it. -/
theorem length_lt_of_skipSpace {x : Symbol} (h : skipSpace s = x :: t) : t.length < s.length := by
  have hle := length_skipSpace_le s
  rw [h] at hle
  exact hle

/-- White space in front of a text is of no account. -/
theorem spells_skipSpace : v.Spells (skipSpace s) r ↔ v.Spells s r := by
  cases v with
  | bool b => cases b <;> rw [Value.Spells, Value.Spells, skipSpace_skipSpace]
  | _ => rw [Value.Spells, Value.Spells, skipSpace_skipSpace]

/-- An item with the items behind it. -/
theorem item_of_reading {w : Tree} {rest : Items} (hw : Document.value fuel s = (w, t))
    (hrest : Document.moreItems fuel t = (rest, r)) :
    Document.item (fuel + 1) s = (.item w rest, r) := by
  rw [Document.item, hw]
  simp only
  rw [hrest]

/-- What spells the rest of a list is read as that. -/
theorem moreItems_of_spells (fuel : Nat) (hitems : ∀ v ∈ items, v.ReadBack)
    (h : SpellsMoreItems items s r) (hfuel : 4 * s.length + 4 ≤ fuel) :
    Document.moreItems fuel s = (itemsTree items, r) ∧ r.length ≤ s.length := by
  obtain ⟨fuel, rfl⟩ : ∃ f, fuel = f + 1 := ⟨fuel - 1, by omega⟩
  induction items generalizing s fuel with
  | nil =>
    rw [SpellsMoreItems] at h
    refine ⟨?_, (length_lt_of_skipSpace h).le⟩
    rw [Document.moreItems, h]
    rfl
  | cons v items ih =>
    rw [SpellsMoreItems] at h
    obtain ⟨s₁, t, hs, hv, hrest⟩ := h
    have hlt := length_lt_of_skipSpace hs
    -- Two calls stand between two items, and the comma has paid for them.
    obtain ⟨fuel, rfl⟩ : ∃ f, fuel = f + 1 + 1 := ⟨fuel - 2, by omega⟩
    obtain ⟨hread, hle⟩ := hitems v List.mem_cons_self (fuel + 1) hv (by omega)
    obtain ⟨hmore, hle'⟩ :=
      ih (fun w hw => hitems w (List.mem_cons_of_mem _ hw)) hrest fuel (by omega)
    refine ⟨?_, by omega⟩
    rw [Document.moreItems, hs]
    exact item_of_reading hread hmore

/-- What spells the items of a list is read as them. -/
theorem items_of_spells (fuel : Nat) (hitems : ∀ v ∈ items, v.ReadBack) (h : SpellsItems items s r)
    (hfuel : 4 * s.length + 7 ≤ fuel) :
    Document.items fuel s = (itemsTree items, r) ∧ r.length ≤ s.length := by
  obtain ⟨fuel, rfl⟩ : ∃ f, fuel = f + 1 + 1 := ⟨fuel - 2, by omega⟩
  cases items with
  | nil =>
    rw [SpellsItems] at h
    refine ⟨?_, (length_lt_of_skipSpace h).le⟩
    rw [Document.items, h]
    rfl
  | cons v items =>
    rw [SpellsItems] at h
    obtain ⟨t, hv, hrest⟩ := h
    -- The first item begins behind the white space, and not with the closing bracket.
    obtain ⟨c, s', hs, hc⟩ := hv.head
    have hle := length_skipSpace_le s
    obtain ⟨hread, hle'⟩ := hitems v List.mem_cons_self fuel (spells_skipSpace.mpr hv)
      (by omega)
    obtain ⟨hmore, hle''⟩ := moreItems_of_spells fuel
      (fun w hw => hitems w (List.mem_cons_of_mem _ hw)) hrest (by omega)
    refine ⟨?_, by omega⟩
    rw [hs] at hread
    rw [Document.items, hs]
    simp only [Symbol.char.injEq, hc, if_false]
    exact item_of_reading hread hmore

/-- A member behind the opening quote of its key, with the members behind it. -/
theorem member_of_reading {k : String} {w : Tree} {s₂ s₃ : List Symbol} {rest : Members}
    (hk : readText s = .ok (k.toList, s₂)) (hcolon : skipSpace s₂ = .char ':' :: s₃)
    (hw : Document.value fuel s₃ = (w, t)) (hrest : Document.moreMembers fuel t = (rest, r)) :
    Document.member (fuel + 1 + 1) s = (.member (some k) w rest, r) := by
  rw [Document.member, hk]
  change Document.afterKey (fuel + 1) _ s₂ = _
  rw [Document.afterKey, hcolon]
  simp only [if_true]
  rw [hw, String.ofList_toList]
  simp only
  rw [hrest]

/-- What spells the rest of an object is read as that. -/
theorem moreMembers_of_spells (fuel : Nat) (hmembers : ∀ e ∈ members, e.2.ReadBack)
    (h : SpellsMoreMembers members s r) (hfuel : 4 * s.length + 4 ≤ fuel) :
    Document.moreMembers fuel s = (membersTree members, r) ∧ r.length ≤ s.length := by
  obtain ⟨fuel, rfl⟩ : ∃ f, fuel = f + 1 := ⟨fuel - 1, by omega⟩
  induction members generalizing s fuel with
  | nil =>
    rw [SpellsMoreMembers] at h
    refine ⟨?_, (length_lt_of_skipSpace h).le⟩
    rw [Document.moreMembers, h]
    rfl
  | cons e members ih =>
    obtain ⟨k, v⟩ := e
    rw [SpellsMoreMembers] at h
    obtain ⟨s₀, s₁, s₂, s₃, t, hcomma, hquote, hk, hcolon, hv, hrest⟩ := h
    have hlt := length_lt_of_skipSpace hcomma
    have hlt₁ := length_lt_of_skipSpace hquote
    have hle₂ := length_readText_le hk
    have hlt₃ := length_lt_of_skipSpace hcolon
    -- Three calls stand between two members: comma, key and colon have paid for them.
    obtain ⟨fuel, rfl⟩ : ∃ f, fuel = f + 1 + 1 + 1 := ⟨fuel - 3, by omega⟩
    obtain ⟨hread, hle⟩ := hmembers (k, v) List.mem_cons_self (fuel + 1) hv (by omega)
    obtain ⟨hmore, hle'⟩ :=
      ih (fun w hw => hmembers w (List.mem_cons_of_mem _ hw)) hrest fuel (by omega)
    refine ⟨?_, by omega⟩
    rw [Document.moreMembers, hcomma]
    dsimp only
    rw [if_neg (by decide), if_pos rfl, hquote]
    exact member_of_reading hk hcolon hread hmore

/-- What spells the members of an object is read as them. -/
theorem members_of_spells (fuel : Nat) (hmembers : ∀ e ∈ members, e.2.ReadBack)
    (h : SpellsMembers members s r) (hfuel : 4 * s.length + 4 ≤ fuel) :
    Document.members fuel s = (membersTree members, r) ∧ r.length ≤ s.length := by
  obtain ⟨fuel, rfl⟩ : ∃ f, fuel = f + 1 := ⟨fuel - 1, by omega⟩
  -- Either the brace is closed at once, or a member stands there.
  cases members with
  | nil =>
    rw [SpellsMembers] at h
    refine ⟨?_, (length_lt_of_skipSpace h).le⟩
    rw [Document.members, h]
    rfl
  | cons e members =>
    obtain ⟨k, v⟩ := e
    rw [SpellsMembers] at h
    obtain ⟨s₁, s₂, s₃, t, hquote, hk, hcolon, hv, hrest⟩ := h
    have hlt₁ := length_lt_of_skipSpace hquote
    have hle₂ := length_readText_le hk
    have hlt₃ := length_lt_of_skipSpace hcolon
    obtain ⟨fuel, rfl⟩ : ∃ f, fuel = f + 1 + 1 := ⟨fuel - 2, by omega⟩
    obtain ⟨hread, hle⟩ := hmembers (k, v) List.mem_cons_self fuel hv (by omega)
    obtain ⟨hmore, hle'⟩ := moreMembers_of_spells fuel
      (fun w hw => hmembers w (List.mem_cons_of_mem _ hw)) hrest (by omega)
    refine ⟨?_, by omega⟩
    rw [Document.members, hquote]
    exact member_of_reading hk hcolon hread hmore

/-- Some fuel is there in any case, so one call of the reader may be unfolded. -/
theorem Value.ReadBack.of_succ (h : ∀ (s r : List Symbol) (fuel : Nat), v.Spells s r →
    4 * s.length + 4 ≤ fuel + 1 → Document.value (fuel + 1) s = (v.tree, r)
      ∧ r.length ≤ s.length) : v.ReadBack := by
  intro s r fuel hspells hfuel
  cases fuel with
  | zero => omega
  | succ fuel => exact h s r fuel hspells hfuel

/-- **Every text of a value is read as the value's tree.** -/
theorem value_of_spells (v : Value) : v.ReadBack := by
  -- By induction over the value: a text of a list or an object is read item by item, each by the
  -- induction hypothesis.
  induction v using Value.induction with
  | null =>
    refine .of_succ fun s r fuel h hfuel => ?_
    rw [Value.Spells] at h
    exact ⟨value_word h (.inl ⟨rfl, rfl, rfl⟩), length_le_of_word h⟩
  | bool b =>
    refine .of_succ fun s r fuel h hfuel => ?_
    cases b with
    | true =>
      rw [Value.Spells] at h
      exact ⟨value_word h (.inr (.inl ⟨rfl, rfl, rfl⟩)), length_le_of_word h⟩
    | false =>
      rw [Value.Spells] at h
      exact ⟨value_word h (.inr (.inr ⟨rfl, rfl, rfl⟩)), length_le_of_word h⟩
  | number n =>
    refine .of_succ fun s r fuel h hfuel => ?_
    rw [Value.Spells] at h
    obtain ⟨m, hm, hn⟩ := h
    refine ⟨?_, (readNumeral_eq_ok hm).2.trans (length_skipSpace_le s)⟩
    rw [value_numeral hm, hn, Value.tree]
  | string text =>
    refine .of_succ fun s r fuel h hfuel => ?_
    rw [Value.Spells] at h
    obtain ⟨s₁, hs, htext⟩ := h
    refine ⟨?_, (length_readText_le htext).trans (length_lt_of_skipSpace hs).le⟩
    rw [value_text hs htext, String.ofList_toList, Value.tree]
  | array items ih =>
    refine .of_succ fun s r fuel h hfuel => ?_
    rw [Value.Spells] at h
    obtain ⟨s₁, hs, hitems⟩ := h
    have hlt := length_lt_of_skipSpace hs
    obtain ⟨hread, hle⟩ := items_of_spells fuel ih hitems (by omega)
    refine ⟨?_, by omega⟩
    rw [value_array hs, hread, Value.tree]
  | object members ih =>
    refine .of_succ fun s r fuel h hfuel => ?_
    rw [Value.Spells] at h
    obtain ⟨s₁, hs, hmembers⟩ := h
    have hlt := length_lt_of_skipSpace hs
    obtain ⟨hread, hle⟩ := members_of_spells fuel ih hmembers (by omega)
    refine ⟨?_, by omega⟩
    rw [value_object hs, hread, Value.tree]

/-- A document that is a text of `v` and white space is the document of `v`. -/
theorem ofSymbols_of_spells (h : v.Spells s r) (hr : skipSpace r = []) :
    Document.ofSymbols s = v.document := by
  rw [Document.ofSymbols, (value_of_spells v _ h le_rfl).1]
  simp [Value.document, hr]

/-! ### The compact layout -/

theorem skipSpace_cons {c : Char} (h : isSpace (.char c) = false) (s : List Symbol) :
    skipSpace (.char c :: s) = .char c :: s :=
  List.dropWhile_cons_of_neg (by rw [h]; exact Bool.false_ne_true)

/-- A numeral is separated by a comma or a bracket from what follows. -/
theorem stops_writeItems (items : List Value) (cs : List Char) :
    Stops (symbols (writeItems items false (']' :: cs))) := by
  cases items with
  | nil => exact stops_cons (by decide) (by decide)
  | cons v items => exact stops_cons (by decide) (by decide)

/-- What stands behind a member stops a numeral. -/
theorem stops_writeMembers (members : List (String × Value)) (cs : List Char) :
    Stops (symbols (writeMembers members false ('\x7d' :: cs))) := by
  cases members with
  | nil => exact stops_cons (by decide) (by decide)
  | cons e members => exact stops_cons (by decide) (by decide)

/-- A number begins with no white space. -/
theorem skipSpace_chars {n : Number} (hn : n.Proper) (hs : Stops s) :
    skipSpace (symbols n.chars ++ s) = symbols n.chars ++ s := by
  obtain ⟨m, hm, -⟩ := readNumeral_chars hn hs
  obtain ⟨⟨c, s', heq, hc⟩, -⟩ := readNumeral_eq_ok hm
  rw [heq]
  refine skipSpace_cons ?_ s'
  rw [isSpace, Bool.eq_false_iff]
  -- A numeral begins with a minus sign or a digit, and neither is white space.
  intro hspace
  simp only [Bool.or_eq_true, decide_eq_true_eq] at hspace
  obtain ((rfl | rfl) | rfl) | rfl := hspace <;> exact absurd hc (by decide)

/-- The symbols of two texts are those of the one and those of the other. -/
theorem symbols_append (cs cs' : List Char) : symbols (cs ++ cs') = symbols cs ++ symbols cs' :=
  List.map_append

/-- A text is written between quotes, character by character. -/
theorem writeText_append (k : String) (cs : List Char) :
    symbols (writeText k cs) = .char '"' :: (symbols (k.toList.flatMap escapeChar)
      ++ .char '"' :: symbols cs) := by
  rw [writeText, symbols, List.map_cons, List.map_append, List.map_cons]

/-- The compact text of the value is a text of its echo, wherever it stands. -/
def Value.WrittenBack (v : Value) : Prop :=
  ∀ ⦃cs : List Char⦄, Stops (symbols cs) → v.echo.Spells (symbols (v.write cs)) (symbols cs)

/-- The items that are written behind the first one spell what comes back of them. -/
theorem spells_writeItems (h : ∀ v ∈ items, v.WrittenBack) (cs : List Char) :
    SpellsMoreItems (items.map Value.echo) (symbols (writeItems items false (']' :: cs)))
      (symbols cs) := by
  induction items with
  | nil => exact skipSpace_cons (by decide) _
  | cons v items ih =>
    obtain ⟨hv, hitems⟩ := List.forall_mem_cons.mp h
    exact ⟨_, _, skipSpace_cons (by decide) _, hv (stops_writeItems items cs), ih hitems⟩

/-- The members that are written behind the first one spell what comes back of them. -/
theorem spells_writeMembers (h : ∀ e ∈ members, e.2.WrittenBack) (cs : List Char) :
    SpellsMoreMembers (members.map fun e => (e.1, e.2.echo))
      (symbols (writeMembers members false ('\x7d' :: cs))) (symbols cs) := by
  induction members with
  | nil => exact skipSpace_cons (by decide) _
  | cons e members ih =>
    obtain ⟨k, v⟩ := e
    obtain ⟨hv, hmembers⟩ := List.forall_mem_cons.mp h
    have hstops := stops_writeMembers members cs
    -- Comma, key and colon stand one behind another, without white space.
    refine ⟨_, _, _, _, _, skipSpace_cons (by decide) _, ?_, readText_escaped k.toList _,
      skipSpace_cons (by decide) _, hv hstops, ih hmembers⟩
    change skipSpace (symbols (writeText k _)) = _
    rw [writeText_append]
    exact skipSpace_cons (by decide) _

/-- **The compact text of a value is a text of its echo.** -/
theorem Value.Proper.writtenBack (hv : v.Proper) : v.WrittenBack := by
  induction hv with
  | null =>
    rw [Value.WrittenBack, Value.echo_null]
    exact fun cs _ => skipSpace_cons (by decide) _
  | bool b =>
    rw [Value.WrittenBack, Value.echo_bool]
    cases b <;> exact fun cs _ => skipSpace_cons (by decide) _
  | @number n hn =>
    intro cs hcs
    obtain ⟨m, hm, hvalue⟩ := readNumeral_chars hn hcs
    rw [Value.echo_number]
    refine ⟨m, ?_, hvalue⟩
    change readNumeral (skipSpace (symbols (n.chars ++ cs))) = _
    rw [symbols_append, skipSpace_chars hn hcs, hm]
  | string text =>
    intro cs _
    rw [Value.echo_string]
    refine ⟨_, ?_, readText_escaped text.toList (symbols cs)⟩
    change skipSpace (symbols (writeText text [] ++ cs)) = _
    rw [symbols_append, writeText_append, List.cons_append, List.append_assoc]
    exact skipSpace_cons (by decide) _
  | @array items _ ih =>
    intro cs _
    rw [Value.echo_array]
    refine ⟨_, skipSpace_cons (by decide) _, ?_⟩
    -- The first item has no comma in front of it, and the others have.
    cases items with
    | nil => exact skipSpace_cons (by decide) _
    | cons v items =>
      obtain ⟨hv, hitems⟩ := List.forall_mem_cons.mp ih
      have hstops := stops_writeItems items cs
      exact ⟨_, hv hstops, spells_writeItems hitems cs⟩
  | @object members _ ih =>
    intro cs _
    rw [Value.echo_object]
    refine ⟨_, skipSpace_cons (by decide) _, ?_⟩
    -- So with the first member.
    cases members with
    | nil => exact skipSpace_cons (by decide) _
    | cons e members =>
      obtain ⟨k, v⟩ := e
      obtain ⟨hv, hmembers⟩ := List.forall_mem_cons.mp ih
      have hstops := stops_writeMembers members cs
      refine ⟨_, _, _, _, ?_, readText_escaped k.toList _, skipSpace_cons (by decide) _,
        hv hstops, spells_writeMembers hmembers cs⟩
      change skipSpace (symbols (writeText k _)) = _
      rw [writeText_append]
      exact skipSpace_cons (by decide) _

/-- The compact text of a value spells what comes back of it. -/
theorem Value.Proper.spells_write (hv : v.Proper) : v.echo.Spells (symbols (v.write [])) [] :=
  hv.writtenBack stops_nil

/-- **What is written in the compact layout reads back**, as the document of the value's echo. -/
theorem ofText_compact (hv : v.Proper) : Document.ofText v.compact = v.echo.document := by
  rw [Document.ofText, Value.compact, String.toList_ofList]
  exact ofSymbols_of_spells hv.spells_write rfl

/-! ### Every tree has proper numbers -/

/-- What each of the reading functions gives with this fuel has proper numbers. -/
structure ReadsProper (fuel : Nat) : Prop where
  value : ∀ s, (Document.value fuel s).1.Proper
  items : ∀ s, (Document.items fuel s).1.Proper
  item : ∀ s, (Document.item fuel s).1.Proper
  moreItems : ∀ s, (Document.moreItems fuel s).1.Proper
  members : ∀ s, (Document.members fuel s).1.Proper
  member : ∀ s, (Document.member fuel s).1.Proper
  afterKey : ∀ key s, (Document.afterKey fuel key s).1.Proper
  moreMembers : ∀ s, (Document.moreMembers fuel s).1.Proper

/-- A word is read as its value or is broken. -/
theorem keyword_proper (cs : List Char) {w : Tree} (hw : w.Proper) (s : List Symbol) :
    (Document.keyword cs w s).1.Proper := by
  unfold Document.keyword
  split
  · exact hw
  · exact trivial

/-- A text has no number in it. -/
theorem text_proper (s : List Symbol) : (Document.text s).1.Proper := by
  unfold Document.text
  split
  · exact trivial
  · split <;> exact trivial

/-- The number of a numeral is one that documents can have. -/
theorem numeral_proper (s : List Symbol) : (Document.numeral s).1.Proper := by
  unfold Document.numeral
  split
  · next m s' _ =>
    cases hm : m.value? with
    | none => exact trivial
    | some n => exact Numeral.value?_proper hm
  · exact trivial

namespace ReadsProper

variable (h : ReadsProper fuel)

include h

/-- A word, a text, a numeral, or what stands in brackets or braces. -/
theorem value_succ (s : List Symbol) : (Document.value (fuel + 1) s).1.Proper := by
  -- One case for each kind of first character, in the order in which the reader asks for them.
  rw [Document.value]
  split
  · exact trivial
  · exact trivial
  · split
    · exact keyword_proper _ (by trivial) _
    split
    · exact keyword_proper _ (by trivial) _
    split
    · exact keyword_proper _ (by trivial) _
    split
    · exact text_proper _
    split
    · exact numeral_proper _
    split
    · exact h.items _
    split
    · exact h.members _
    · exact trivial

/-- Items are read with one step less. -/
theorem items_succ (s : List Symbol) : (Document.items (fuel + 1) s).1.Proper := by
  rw [Document.items]
  split
  · exact trivial
  · split
    · exact trivial
    · exact h.item _

/-- The rest of a list is read with one step less. -/
theorem moreItems_succ (s : List Symbol) : (Document.moreItems (fuel + 1) s).1.Proper := by
  rw [Document.moreItems]
  split
  · exact trivial
  · split
    · exact trivial
    split
    · exact h.item _
    · exact trivial

/-- Members are read with one step less. -/
theorem members_succ (s : List Symbol) : (Document.members (fuel + 1) s).1.Proper := by
  rw [Document.members]
  split
  · exact trivial
  · split
    · exact trivial
    split
    · exact h.member _
    · exact trivial

/-- A member is read on behind its key, even if the key cannot be read. -/
theorem member_succ (s : List Symbol) : (Document.member (fuel + 1) s).1.Proper := by
  rw [Document.member]
  split
  · exact h.afterKey _ _
  · split
    · exact h.afterKey _ _
    · exact trivial

/-- What stands behind a key is read with one step less. -/
theorem afterKey_succ (key : Option String) (s : List Symbol) :
    (Document.afterKey (fuel + 1) key s).1.Proper := by
  rw [Document.afterKey]
  split
  · exact ⟨trivial, trivial⟩
  · split
    · exact ⟨h.value _, h.moreMembers _⟩
    · exact ⟨trivial, trivial⟩

/-- Behind a member stands a closing brace, or a comma and the quote of another key. -/
theorem moreMembers_succ (s : List Symbol) : (Document.moreMembers (fuel + 1) s).1.Proper := by
  rw [Document.moreMembers]
  split
  · exact trivial
  · split
    · exact trivial
    split
    · split
      · exact trivial
      · split
        · exact h.member _
        · exact trivial
    · exact trivial

/-- One more unit of fuel is one more call of any of the reading functions. -/
theorem succ : ReadsProper (fuel + 1) where
  value := h.value_succ
  items := h.items_succ
  item s := by
    rw [Document.item]
    exact ⟨h.value _, h.moreItems _⟩
  moreItems := h.moreItems_succ
  members := h.members_succ
  member := h.member_succ
  afterKey := h.afterKey_succ
  moreMembers := h.moreMembers_succ

end ReadsProper

/-- **Reading gives proper trees only**, whatever the text is and however far it is read. -/
theorem readsProper (fuel : Nat) : ReadsProper fuel := by
  induction fuel with
  | zero => constructor <;> intros <;> exact trivial
  | succ fuel ih => exact ih.succ

/-- **Every document that is read has proper numbers**, whether it can be decoded or not. -/
theorem ofSymbols_proper (s : List Symbol) : (Document.ofSymbols s).root.Proper :=
  (readsProper (4 * s.length + 4)).value s

/-- The items of a proper list are proper. -/
theorem itemsTree_proper (h : ∀ v ∈ items, v.tree.Proper) : (itemsTree items).Proper := by
  induction items with
  | nil => exact trivial
  | cons v items ih =>
    obtain ⟨hv, hitems⟩ := List.forall_mem_cons.mp h
    exact ⟨hv, ih hitems⟩

/-- The members of a proper object are proper. -/
theorem membersTree_proper (h : ∀ e ∈ members, e.2.tree.Proper) :
    (membersTree members).Proper := by
  induction members with
  | nil => exact trivial
  | cons e members ih =>
    obtain ⟨k, v⟩ := e
    obtain ⟨hv, hmembers⟩ := List.forall_mem_cons.mp h
    exact ⟨hv, ih hmembers⟩

/-- The numbers of a document that writes the value are those of the value. -/
theorem Value.Proper.tree (h : v.Proper) : v.tree.Proper := by
  induction h with
  | null | bool _ | string _ => exact trivial
  | number h => exact h
  | array _ ih => exact itemsTree_proper ih
  | object _ ih => exact membersTree_proper ih

theorem Value.Proper.canonical_sorted (h : v.Proper) : v.sorted.Canonical :=
  Tree.value_canonical h.tree (value_tree le_rfl)

end CompositeCrd.Json
