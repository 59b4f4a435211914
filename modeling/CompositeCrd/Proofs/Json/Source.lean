import CompositeCrd.Proofs.Json.Grammar

/-!
# The text behind a tree

Every document is read as a tree, whatever is wrong with it. Where a tree can be passed over
without a fault, the document has a text of the grammar there: `Tree.Written t cs r` says that
the document `cs` starts with a text of `t`, with white space between its tokens as anyone
likes, and goes on with `r`. Unlike `Value.Spells` this is about trees, which keep repeated
members and texts that make no sense.

Reading is sound for it (`readsWritten`).
-/

namespace CompositeCrd.Json

open Document (isSpace skipSpace)

variable {cs r : List Char} {s : List Symbol}

/-! ### White space -/

/-- The document behind leading white space. -/
def dropSpace (cs : List Char) : List Char :=
  cs.dropWhile fun c => isSpace (.char c)

/-- White space is skipped alike in characters and in symbols. -/
theorem skipSpace_symbols (cs : List Char) : skipSpace (symbols cs) = symbols (dropSpace cs) := by
  rw [skipSpace, symbols, List.dropWhile_map]
  rfl

@[simp] theorem dropSpace_dropSpace (cs : List Char) : dropSpace (dropSpace cs) = dropSpace cs :=
  List.dropWhile_idempotent _ cs

/-! ### Quoted texts -/

/-- A short escape is skipped as two symbols. -/
theorem skipText_escape {e d : Char} (he : e ≠ 'u') (hd : escaped? e = some d) (s : List Symbol) :
    skipText (.char '\\' :: .char e :: s) = skipText s := by
  rw [skipText.eq_def]
  simp [he, hd]

/-- A code is skipped as six symbols. -/
theorem skipText_code {h₁ h₂ h₃ h₄ : Symbol} {n : Nat} (hn : hex4? h₁ h₂ h₃ h₄ = some n)
    (s : List Symbol) :
    skipText (.char '\\' :: .char 'u' :: h₁ :: h₂ :: h₃ :: h₄ :: s) = skipText s := by
  rw [skipText]
  simp [hn]

/-- A text that is read can be skipped, and ends at the same place. -/
theorem skipText_of_readText {t : List Char} {s r : List Symbol} (h : readText s = .ok (t, r)) :
    skipText s = .ok r := by
  -- Skipping takes the same symbols, and asks for less.
  fun_induction readText s generalizing t with
  -- Behind half of a surrogate pair nothing is read.
  | case2 => exact absurd h (afterStray_ne_ok _)
  | case3 =>
    obtain ⟨-, rfl⟩ := Prod.mk.inj (Except.ok.inj h)
    rw [skipText.eq_def]
    exact if_pos rfl
  | case5 c s hquote hslash hcontrol ih =>
    obtain ⟨t', h⟩ := push_eq_ok h
    rw [skipText.eq_def]
    dsimp only
    rw [if_neg hquote, if_pos hslash, if_neg hcontrol]
    exact ih h
  | case8 b hquote hslash e s he c hc ih =>
    obtain ⟨t', h⟩ := push_eq_ok h
    rw [not_not.mp hslash, skipText_escape he hc]
    exact ih h
  | case11 b hquote hslash e he h₁ h₂ h₃ h₄ s n hn hrange ih =>
    obtain ⟨t', h⟩ := push_eq_ok h
    rw [not_not.mp hslash, not_not.mp he, skipText_code hn]
    exact ih h
  -- A surrogate pair is read as one character, and skipped as two codes.
  | case19 b hquote hslash e he h₁ h₂ h₃ h₄ n hn hrange hfirst b' u hescape l₁ l₂ l₃ l₄ s m hm
      hsecond ih =>
    obtain ⟨t', h⟩ := push_eq_ok h
    obtain ⟨hb', hu⟩ := not_or.mp hescape
    rw [not_not.mp hslash, not_not.mp he, skipText_code hn, not_not.mp hb', not_not.mp hu,
      skipText_code hm]
    exact ih h
  | _ => simp at h

/-- Behind an opening quote stand a text and its closing quote, and then `r`, whatever the
escapes in the text stand for. -/
inductive Skips : (cs r : List Char) → Prop
  | quote (r : List Char) : Skips ('"' :: r) r
  | char {c : Char} {cs r : List Char} (hquote : c ≠ '"') (hslash : c ≠ '\\')
    (hcontrol : ¬c.toNat < 0x20) (h : Skips cs r) : Skips (c :: cs) r
  | escape {e d : Char} {cs r : List Char} (he : e ≠ 'u') (hd : escaped? e = some d)
    (h : Skips cs r) : Skips ('\\' :: e :: cs) r
  | code {h₁ h₂ h₃ h₄ : Char} {n : Nat} {cs r : List Char}
    (hn : hex4? (.char h₁) (.char h₂) (.char h₃) (.char h₄) = some n) (h : Skips cs r) :
    Skips ('\\' :: 'u' :: h₁ :: h₂ :: h₃ :: h₄ :: cs) r

/-- A text that is skipped is one by its characters. -/
theorem skips_of_skipText (h : skipText (symbols cs) = .ok s) :
    ∃ r, s = symbols r ∧ Skips cs r := by
  -- Along the steps of the reader; the symbols it passed are all characters, since `x` is a text
  -- of them.
  generalize hcs : symbols cs = x at h
  fun_induction skipText x generalizing cs with
  | case2 =>
    obtain ⟨_, _, _, hc, _⟩ := List.map_eq_cons_iff.mp hcs
    simp at hc
  | case3 =>
    obtain ⟨_, cs', rfl, hc, rfl⟩ := List.map_eq_cons_iff.mp hcs
    obtain rfl := Symbol.char.inj hc
    obtain rfl := Except.ok.inj h
    exact ⟨cs', rfl, .quote cs'⟩
  | case5 c s hquote hslash hcontrol ih =>
    obtain ⟨_, cs', rfl, hc, rfl⟩ := List.map_eq_cons_iff.mp hcs
    obtain rfl := Symbol.char.inj hc
    obtain ⟨r, rfl, hr⟩ := ih rfl h
    exact ⟨r, rfl, .char hquote hslash hcontrol hr⟩
  | case8 b hquote hslash e s he hd ih =>
    obtain ⟨_, cs', rfl, hb, hcs⟩ := List.map_eq_cons_iff.mp hcs
    obtain ⟨_, cs', rfl, hc, rfl⟩ := List.map_eq_cons_iff.mp hcs
    obtain rfl := Symbol.char.inj hb
    obtain rfl := Symbol.char.inj hc
    obtain ⟨d, hd⟩ := Option.isSome_iff_exists.mp hd
    obtain ⟨r, rfl, hr⟩ := ih rfl h
    exact ⟨r, rfl, not_not.mp hslash ▸ .escape he hd hr⟩
  | case10 b hquote hslash e he h₁ h₂ h₃ h₄ s hn ih =>
    obtain ⟨n, hn⟩ := Option.isSome_iff_exists.mp hn
    rcases cs with _ | ⟨_, _ | ⟨_, _ | ⟨c₁, _ | ⟨c₂, _ | ⟨c₃, _ | ⟨c₄, cs⟩⟩⟩⟩⟩⟩ <;>
      simp [symbols] at hcs
    obtain ⟨rfl, rfl, rfl, rfl, rfl, rfl, rfl⟩ := hcs
    obtain ⟨r, rfl, hr⟩ := ih rfl h
    have hcode := hr.code hn
    rw [← not_not.mp hslash, ← not_not.mp he] at hcode
    exact ⟨r, rfl, hcode⟩
  | _ => simp at h

/-- Behind an opening quote stands a text that says `key`, or that makes no sense. -/
def Quoted (key : Option String) (cs r : List Char) : Prop :=
  Skips cs r ∧ key = match readText (symbols cs) with
    | .ok (t, _) => some (String.ofList t)
    | .error _ => none

/-! ### Numerals and words -/

/-- What the symbols begin with, the characters begin with. -/
theorem exists_of_symbols_eq_append (ds : List Char) {x : List Symbol}
    (h : symbols cs = symbols ds ++ x) : ∃ r, cs = ds ++ r ∧ x = symbols r := by
  obtain ⟨ds', r, rfl, hds', rfl⟩ := List.map_eq_append_iff.mp h
  obtain rfl := List.map_injective_iff.mpr (fun _ _ => Symbol.char.inj) hds'
  exact ⟨r, rfl, rfl⟩

/-- A word that is read stands in the text. -/
theorem exists_of_word {word : List Char} (h : Document.word word (symbols cs) = .ok s) :
    ∃ r, cs = word ++ r ∧ s = symbols r := by
  induction word generalizing cs with
  | nil => exact ⟨cs, rfl, (Except.ok.inj h).symm⟩
  | cons c word ih =>
    cases cs with
    | nil => exact absurd h (by simp [Document.word])
    | cons c' cs =>
      rw [symbols, List.map_cons, Document.word] at h
      -- The next character is the next one of the word, or nothing is read.
      split at h
      · next hc =>
        obtain ⟨r, rfl, rfl⟩ := ih h
        exact ⟨r, by rw [Symbol.char.inj hc, List.cons_append], rfl⟩
      · exact absurd h (by simp)

/-! ### The grammar -/

/-- Between two items or members stands a comma, and in front of the first there is none. -/
def Separated (first : Bool) (cs r : List Char) : Prop :=
  dropSpace cs = if first then r else ',' :: r

mutual

/-- The document starts with a text of a tree and goes on with `r`. -/
def Tree.Written : Tree → (cs r : List Char) → Prop
  | .null, cs, r => dropSpace cs = ['n', 'u', 'l', 'l'] ++ r
  | .bool true, cs, r => dropSpace cs = ['t', 'r', 'u', 'e'] ++ r
  | .bool false, cs, r => dropSpace cs = ['f', 'a', 'l', 's', 'e'] ++ r
  | .number n, cs, r => ∃ ds, dropSpace cs = ds ++ r ∧ NumberWritten n ds
  | .string text, cs, r => ∃ cs', dropSpace cs = '"' :: cs' ∧ Quoted text cs' r
  | .array items, cs, r => ∃ cs', dropSpace cs = '[' :: cs' ∧ items.Written true cs' r
  | .object members, cs, r => ∃ cs', dropSpace cs = '\x7b' :: cs' ∧ members.Written true cs' r
  | .broken _ _, _, _ => False

/-- The document starts with the items of a list, up to its closing bracket. -/
def Items.Written : Items → (first : Bool) → (cs r : List Char) → Prop
  | .closed, _, cs, r => dropSpace cs = ']' :: r
  | .broken _, _, _, _ => False
  | .item t rest, first, cs, r => ∃ cs₁ cs₂, Separated first cs cs₁ ∧ t.Written cs₁ cs₂
      ∧ rest.Written false cs₂ r

/-- The document starts with the members of an object, up to its closing brace. -/
def Members.Written : Members → (first : Bool) → (cs r : List Char) → Prop
  | .closed, _, cs, r => dropSpace cs = '\x7d' :: r
  | .broken _, _, _, _ => False
  | .noKey _, _, _, _ => False
  | .badKey _ _, _, _, _ => False
  | .member key t rest, first, cs, r => ∃ cs₁ cs₂ cs₃ cs₄ cs₅, Separated first cs cs₁
      ∧ dropSpace cs₁ = '"' :: cs₂ ∧ Quoted key cs₂ cs₃ ∧ dropSpace cs₃ = ':' :: cs₄
      ∧ t.Written cs₄ cs₅ ∧ rest.Written false cs₅ r

end

/-! ### Reading is sound -/

/-- Items can be skipped if each of them can. -/
theorem skip_item {t : Tree} {rest : Items} :
    (Items.item t rest).skip = .ok () ↔ t.skip = .ok () ∧ rest.skip = .ok () := by
  rw [Items.skip]
  cases t.skip <;> simp

/-- Members can be skipped if each of their values can. -/
theorem skip_member {key : Option String} {t : Tree} {rest : Members} :
    (Members.member key t rest).skip = .ok () ↔ t.skip = .ok () ∧ rest.skip = .ok () := by
  rw [Members.skip]
  cases t.skip <;> simp

/-- What each of the reading functions gives with this fuel is written in the document, if it
can be passed over. -/
structure ReadsWritten (fuel : Nat) : Prop where
  value : ∀ {cs t s}, Document.value fuel (symbols cs) = (t, s) → t.skip = .ok () →
    ∃ r, s = symbols r ∧ t.Written cs r
  items : ∀ {cs is s}, Document.items fuel (symbols cs) = (is, s) → is.skip = .ok () →
    ∃ r, s = symbols r ∧ is.Written true cs r
  item : ∀ {cs is s}, Document.item fuel (symbols cs) = (is, s) → is.skip = .ok () →
    ∃ r, s = symbols r ∧ ∀ first cs', Separated first cs' cs → is.Written first cs' r
  moreItems : ∀ {cs is s}, Document.moreItems fuel (symbols cs) = (is, s) → is.skip = .ok () →
    ∃ r, s = symbols r ∧ is.Written false cs r
  members : ∀ {cs ms s}, Document.members fuel (symbols cs) = (ms, s) → ms.skip = .ok () →
    ∃ r, s = symbols r ∧ ms.Written true cs r
  member : ∀ {cs ms s}, Document.member fuel (symbols cs) = (ms, s) → ms.skip = .ok () →
    ∃ r, s = symbols r ∧ ∀ first cs' cs₁, Separated first cs' cs₁ → dropSpace cs₁ = '"' :: cs →
      ms.Written first cs' r
  afterKey : ∀ {key cs ms s}, Document.afterKey fuel key (symbols cs) = (ms, s) →
    ms.skip = .ok () → ∃ r, s = symbols r ∧ ∀ first cs' cs₁ cs₂, Separated first cs' cs₁ →
      dropSpace cs₁ = '"' :: cs₂ → Quoted key cs₂ cs → ms.Written first cs' r
  moreMembers : ∀ {cs ms s}, Document.moreMembers fuel (symbols cs) = (ms, s) →
    ms.skip = .ok () → ∃ r, s = symbols r ∧ ms.Written false cs r

/-- A word that is read as its value stands in the text. -/
theorem keyword_written {word : List Char} {w t : Tree}
    (h : Document.keyword word w (symbols cs) = (t, s)) (ht : t.skip = .ok ()) :
    t = w ∧ ∃ r, cs = word ++ r ∧ s = symbols r := by
  unfold Document.keyword at h
  split at h
  · next s' hword =>
    obtain ⟨rfl, rfl⟩ := Prod.mk.inj h
    exact ⟨rfl, exists_of_word hword⟩
  · obtain ⟨rfl, rfl⟩ := Prod.mk.inj h
    exact absurd ht (by simp [Tree.skip])

/-- A text that is read stands between quotes. -/
theorem text_written {t : Tree} (h : Document.text (symbols cs) = (t, s)) (ht : t.skip = .ok ()) :
    ∃ key r, t = .string key ∧ s = symbols r ∧ Quoted key cs r := by
  unfold Document.text at h
  split at h
  · next text s' hread =>
    obtain ⟨rfl, rfl⟩ := Prod.mk.inj h
    obtain ⟨r, rfl, hskips⟩ := skips_of_skipText (skipText_of_readText hread)
    exact ⟨_, r, rfl, rfl, hskips, by rw [hread]⟩
  · -- A text with a broken character may still be passed over.
    next f hread =>
    split at h
    · next s' hskip =>
      obtain ⟨rfl, rfl⟩ := Prod.mk.inj h
      obtain ⟨r, rfl, hskips⟩ := skips_of_skipText hskip
      exact ⟨_, r, rfl, rfl, hskips, by rw [hread]⟩
    · obtain ⟨rfl, rfl⟩ := Prod.mk.inj h
      exact absurd ht (by simp [Tree.skip])

/-- A number that is read is written by the numeral that stands there. -/
theorem numeral_written {t : Tree} (h : Document.numeral (symbols cs) = (t, s))
    (ht : t.skip = .ok ()) :
    ∃ n ds r, t = .number n ∧ cs = ds ++ r ∧ s = symbols r ∧ NumberWritten n ds := by
  unfold Document.numeral at h
  split at h
  · next m s' hread =>
    obtain ⟨rfl, rfl⟩ := Prod.mk.inj h
    obtain ⟨ds, heq, hds⟩ := exists_of_readNumeral hread
    obtain ⟨r, rfl, rfl⟩ := exists_of_symbols_eq_append ds heq
    exact ⟨_, ds, r, rfl, rfl, rfl, m, hds, rfl⟩
  · obtain ⟨rfl, rfl⟩ := Prod.mk.inj h
    exact absurd ht (by simp [Tree.skip])

namespace ReadsWritten

variable {fuel : Nat}

/-- A value is written where it was read, if what is in it is. -/
theorem value_succ (h : ReadsWritten fuel) {t : Tree}
    (heq : Document.value (fuel + 1) (symbols cs) = (t, s)) (ht : t.skip = .ok ()) :
    ∃ r, s = symbols r ∧ t.Written cs r := by
  rw [Document.value, skipSpace_symbols] at heq
  -- At the end of the document there is no value.
  rcases hcs : dropSpace cs with _ | ⟨c, cs'⟩ <;> rw [hcs] at heq
  · obtain ⟨rfl, -⟩ := Prod.mk.inj heq
    exact absurd ht (by simp [Tree.skip])
  change (if c = 'n' then _ else _) = _ at heq
  -- The three words, a text, a numeral, and what stands in brackets or braces.
  split at heq
  · next hc =>
    obtain ⟨rfl, r, rfl, rfl⟩ := keyword_written heq ht
    exact ⟨r, rfl, by rw [Tree.Written, hcs, hc]; rfl⟩
  split at heq
  · next hc =>
    obtain ⟨rfl, r, rfl, rfl⟩ := keyword_written heq ht
    exact ⟨r, rfl, by rw [Tree.Written, hcs, hc]; rfl⟩
  split at heq
  · next hc =>
    obtain ⟨rfl, r, rfl, rfl⟩ := keyword_written heq ht
    exact ⟨r, rfl, by rw [Tree.Written, hcs, hc]; rfl⟩
  split at heq
  · next hc =>
    obtain ⟨key, r, rfl, rfl, hquoted⟩ := text_written heq ht
    exact ⟨r, rfl, cs', by rw [hcs, hc], hquoted⟩
  split at heq
  · have heq : Document.numeral (symbols (c :: cs')) = (t, s) := heq
    obtain ⟨n, ds, r, rfl, hds, rfl, hnumeral⟩ := numeral_written heq ht
    exact ⟨r, rfl, ds, by rw [hcs, hds], hnumeral⟩
  split at heq
  · next hc =>
    obtain ⟨rfl, rfl⟩ := Prod.mk.inj heq
    obtain ⟨r, hr, hitems⟩ := h.items rfl ht
    exact ⟨r, hr, cs', by rw [hcs, hc], hitems⟩
  split at heq
  · next hc =>
    obtain ⟨rfl, rfl⟩ := Prod.mk.inj heq
    obtain ⟨r, hr, hmembers⟩ := h.members rfl ht
    exact ⟨r, hr, cs', by rw [hcs, hc], hmembers⟩
  · obtain ⟨rfl, -⟩ := Prod.mk.inj heq
    exact absurd ht (by simp [Tree.skip])

/-- A list is written behind its bracket. -/
theorem items_succ (h : ReadsWritten fuel) {is : Items}
    (heq : Document.items (fuel + 1) (symbols cs) = (is, s)) (his : is.skip = .ok ()) :
    ∃ r, s = symbols r ∧ is.Written true cs r := by
  rw [Document.items, skipSpace_symbols] at heq
  -- Behind white space stands the closing bracket or the first item.
  rcases hcs : dropSpace cs with _ | ⟨c, cs'⟩ <;> rw [hcs] at heq
  · obtain ⟨rfl, -⟩ := Prod.mk.inj heq
    exact absurd his (by simp [Items.skip])
  change (if Symbol.char c = .char ']' then _ else _) = _ at heq
  split at heq
  · next hc =>
    obtain ⟨rfl, rfl⟩ := Prod.mk.inj heq
    exact ⟨cs', rfl, by rw [Items.Written, hcs, Symbol.char.inj hc]⟩
  · have heq : Document.item fuel (symbols (c :: cs')) = (is, s) := heq
    obtain ⟨r, hr, hitem⟩ := h.item heq his
    exact ⟨r, hr, hitem true cs hcs⟩

/-- An item is written where it was read, whether or not a comma stands in front of it. -/
theorem item_succ (h : ReadsWritten fuel) {is : Items}
    (heq : Document.item (fuel + 1) (symbols cs) = (is, s)) (his : is.skip = .ok ()) :
    ∃ r, s = symbols r ∧ ∀ first cs', Separated first cs' cs → is.Written first cs' r := by
  rw [Document.item] at heq
  obtain ⟨rfl, rfl⟩ := Prod.mk.inj heq
  obtain ⟨ht, hrest⟩ := skip_item.mp his
  obtain ⟨q, hq, hvalue⟩ := h.value rfl ht
  rw [hq] at hrest ⊢
  obtain ⟨r, hr, hmore⟩ := h.moreItems rfl hrest
  exact ⟨r, hr, fun first cs' hsep => ⟨cs, q, hsep, hvalue, hmore⟩⟩

/-- Behind an item stands a bracket, or a comma and more items. -/
theorem moreItems_succ (h : ReadsWritten fuel) {is : Items}
    (heq : Document.moreItems (fuel + 1) (symbols cs) = (is, s)) (his : is.skip = .ok ()) :
    ∃ r, s = symbols r ∧ is.Written false cs r := by
  rw [Document.moreItems, skipSpace_symbols] at heq
  rcases hcs : dropSpace cs with _ | ⟨c, cs'⟩ <;> rw [hcs] at heq
  · obtain ⟨rfl, -⟩ := Prod.mk.inj heq
    exact absurd his (by simp [Items.skip])
  change (if Symbol.char c = .char ']' then _ else _) = _ at heq
  -- The list is closed, goes on behind a comma, or has a fault.
  split at heq
  · next hc =>
    obtain ⟨rfl, rfl⟩ := Prod.mk.inj heq
    exact ⟨cs', rfl, by rw [Items.Written, hcs, Symbol.char.inj hc]⟩
  split at heq
  · next hc =>
    obtain ⟨r, hr, hitem⟩ := h.item heq his
    exact ⟨r, hr, hitem false cs (by rw [Separated, hcs, Symbol.char.inj hc]; rfl)⟩
  · obtain ⟨rfl, -⟩ := Prod.mk.inj heq
    exact absurd his (by simp [Items.skip])

/-- An object is written behind its brace. -/
theorem members_succ (h : ReadsWritten fuel) {ms : Members}
    (heq : Document.members (fuel + 1) (symbols cs) = (ms, s)) (hms : ms.skip = .ok ()) :
    ∃ r, s = symbols r ∧ ms.Written true cs r := by
  rw [Document.members, skipSpace_symbols] at heq
  rcases hcs : dropSpace cs with _ | ⟨c, cs'⟩ <;> rw [hcs] at heq
  · obtain ⟨rfl, -⟩ := Prod.mk.inj heq
    exact absurd hms (by simp [Members.skip])
  change (if Symbol.char c = .char '\x7d' then _ else _) = _ at heq
  -- The object is empty, a key stands there, or it has a fault.
  split at heq
  · next hc =>
    obtain ⟨rfl, rfl⟩ := Prod.mk.inj heq
    exact ⟨cs', rfl, by rw [Members.Written, hcs, Symbol.char.inj hc]⟩
  split at heq
  · next hc =>
    obtain ⟨r, hr, hmember⟩ := h.member heq hms
    refine ⟨r, hr, hmember true cs (dropSpace cs) rfl ?_⟩
    rw [dropSpace_dropSpace, hcs, Symbol.char.inj hc]
  · obtain ⟨rfl, -⟩ := Prod.mk.inj heq
    exact absurd hms (by simp [Members.skip])

/-- A member is written where its key was read, whether or not a comma stands in front of it. -/
theorem member_succ (h : ReadsWritten fuel) {ms : Members}
    (heq : Document.member (fuel + 1) (symbols cs) = (ms, s)) (hms : ms.skip = .ok ()) :
    ∃ r, s = symbols r ∧ ∀ first cs' cs₁, Separated first cs' cs₁ → dropSpace cs₁ = '"' :: cs →
      ms.Written first cs' r := by
  rw [Document.member] at heq
  -- The key makes sense, or it can be passed over.
  split at heq
  · next text s' hread =>
    obtain ⟨q, rfl, hskips⟩ := skips_of_skipText (skipText_of_readText hread)
    obtain ⟨r, hr, hafter⟩ := h.afterKey heq hms
    exact ⟨r, hr, fun first cs' cs₁ hsep hcs₁ =>
      hafter first cs' cs₁ cs hsep hcs₁ ⟨hskips, by rw [hread]⟩⟩
  · next f hread =>
    split at heq
    · next s' hskip =>
      obtain ⟨q, rfl, hskips⟩ := skips_of_skipText hskip
      obtain ⟨r, hr, hafter⟩ := h.afterKey heq hms
      exact ⟨r, hr, fun first cs' cs₁ hsep hcs₁ =>
        hafter first cs' cs₁ cs hsep hcs₁ ⟨hskips, by rw [hread]⟩⟩
    · obtain ⟨rfl, -⟩ := Prod.mk.inj heq
      exact absurd hms (by simp [Members.skip])

/-- Behind a key stand a colon, a value and what follows that. -/
theorem afterKey_succ (h : ReadsWritten fuel) {key : Option String} {ms : Members}
    (heq : Document.afterKey (fuel + 1) key (symbols cs) = (ms, s)) (hms : ms.skip = .ok ()) :
    ∃ r, s = symbols r ∧ ∀ first cs' cs₁ cs₂, Separated first cs' cs₁ →
      dropSpace cs₁ = '"' :: cs₂ → Quoted key cs₂ cs → ms.Written first cs' r := by
  rw [Document.afterKey, skipSpace_symbols] at heq
  rcases hcs : dropSpace cs with _ | ⟨c, cs'⟩ <;> rw [hcs] at heq
  · obtain ⟨rfl, -⟩ := Prod.mk.inj heq
    exact absurd (skip_member.mp hms).1 (by simp [Tree.skip])
  change (if Symbol.char c = .char ':' then _ else _) = _ at heq
  -- Without a colon behind the key there is a fault.
  split at heq
  · next hc =>
    obtain ⟨rfl, rfl⟩ := Prod.mk.inj heq
    obtain ⟨ht, hrest⟩ := skip_member.mp hms
    obtain ⟨q, hq, hvalue⟩ := h.value rfl ht
    rw [hq] at hrest ⊢
    obtain ⟨r, hr, hmore⟩ := h.moreMembers rfl hrest
    refine ⟨r, hr, fun first cs₀ cs₁ cs₂ hsep hcs₁ hkey => ?_⟩
    exact ⟨cs₁, cs₂, cs, cs', q, hsep, hcs₁, hkey, by rw [hcs, Symbol.char.inj hc], hvalue, hmore⟩
  · obtain ⟨rfl, -⟩ := Prod.mk.inj heq
    exact absurd (skip_member.mp hms).1 (by simp [Tree.skip])

/-- Behind a member stands a brace, or a comma and more members. -/
theorem moreMembers_succ (h : ReadsWritten fuel) {ms : Members}
    (heq : Document.moreMembers (fuel + 1) (symbols cs) = (ms, s)) (hms : ms.skip = .ok ()) :
    ∃ r, s = symbols r ∧ ms.Written false cs r := by
  rw [Document.moreMembers, skipSpace_symbols] at heq
  rcases hcs : dropSpace cs with _ | ⟨c, cs'⟩ <;> rw [hcs] at heq
  · obtain ⟨rfl, -⟩ := Prod.mk.inj heq
    exact absurd hms (by simp [Members.skip])
  change (if Symbol.char c = .char '\x7d' then _ else _) = _ at heq
  -- The object is closed, goes on behind a comma, or has a fault.
  split at heq
  · next hc =>
    obtain ⟨rfl, rfl⟩ := Prod.mk.inj heq
    exact ⟨cs', rfl, by rw [Members.Written, hcs, Symbol.char.inj hc]⟩
  split at heq
  · next hc =>
    rw [show skipSpace (List.map _ cs') = _ from skipSpace_symbols cs'] at heq
    rcases hcs' : dropSpace cs' with _ | ⟨d, cs''⟩ <;> rw [hcs'] at heq
    · obtain ⟨rfl, -⟩ := Prod.mk.inj heq
      exact absurd hms (by simp [Members.skip])
    change (if Symbol.char d = .char '"' then _ else _) = _ at heq
    -- Behind a comma there must be a key.
    split at heq
    · next hd =>
      obtain ⟨r, hr, hmember⟩ := h.member heq hms
      refine ⟨r, hr, hmember false cs cs' ?_ ?_⟩
      · rw [Separated, hcs, Symbol.char.inj hc]
        rfl
      · rw [hcs', Symbol.char.inj hd]
    · obtain ⟨rfl, -⟩ := Prod.mk.inj heq
      exact absurd hms (by simp [Members.skip])
  · obtain ⟨rfl, -⟩ := Prod.mk.inj heq
    exact absurd hms (by simp [Members.skip])

/-- One more unit of fuel is one more call of any of the reading functions. -/
theorem succ (h : ReadsWritten fuel) : ReadsWritten (fuel + 1) where
  value := h.value_succ
  items := h.items_succ
  item := h.item_succ
  moreItems := h.moreItems_succ
  members := h.members_succ
  member := h.member_succ
  afterKey := h.afterKey_succ
  moreMembers := h.moreMembers_succ

end ReadsWritten

/-- What is read without a fault is written in the document, with any fuel. -/
theorem readsWritten (fuel : Nat) : ReadsWritten fuel := by
  induction fuel with
  | zero =>
    -- Without fuel everything is broken.
    constructor <;> intros <;> rename_i heq hskip <;> obtain ⟨rfl, -⟩ := Prod.mk.inj heq <;>
      exact absurd hskip (by simp [Tree.skip, Items.skip, Members.skip])
  | succ fuel ih => exact ih.succ

/-- **What can be passed over is written in the document.** -/
theorem ofText_written {text : String} (h : (Document.ofText text).root.skip = .ok ()) :
    ∃ r, (Document.ofText text).root.Written text.toList r
      ∧ (Document.ofText text).ended = (dropSpace r).isEmpty := by
  rcases hread : Document.value (4 * (symbols text.toList).length + 4) (symbols text.toList) with
    ⟨t, s⟩
  rw [Document.ofText, Document.ofSymbols, hread] at h ⊢
  obtain ⟨r, rfl, hwritten⟩ := (readsWritten _).value hread h
  refine ⟨r, hwritten, ?_⟩
  dsimp only
  rw [skipSpace_symbols]
  cases dropSpace r <;> rfl

end CompositeCrd.Json
