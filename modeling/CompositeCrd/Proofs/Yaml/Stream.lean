import CompositeCrd.Proofs.Yaml.Passable
import CompositeCrd.Yaml.Token.Stream

/-!
# The tokens of a JSON document

A JSON document is a YAML document in brackets and braces, as far as YAML reads it at all. Its
YAML tokens follow the tree of the document (`Tree.Tokens`), with one degree of freedom: the
token in front of a key is there only if the colon stands on the line of the key and within
1024 characters. In a passable document it is there always.

Reading is followed token by token. `TokenReader.Between` describes the reader between two
tokens of the document, and there is one lemma for each kind of token, which says where the
reader goes on (`TokenReader.Goes`), and that it does go on if the document is known to be
passable. Put together along the grammar they give `stream?_written`.
-/

namespace CompositeCrd

open Json (dropSpace symbols Quoted Separated)

namespace Yaml.TokenReader

open Input (atSpace atDocumentMark)

variable {r r' : TokenReader} {cs cs' : List Char} {ts T : List Token} {c : Char} {depth : Nat}
  {x : Located} {s : Input} {sure known : Prop} {ok : List Char → Bool}

/-! ### Runs -/

/-- More fuel does not change what is read. -/
theorem run_add {fuel : Nat} (h : run fuel r = some ts) (k : Nat) : run (fuel + k) r = some ts := by
  induction fuel generalizing r with
  | zero => exact absurd h (by simp [run])
  | succ fuel ih =>
    rw [Nat.add_right_comm]
    rw [run] at h ⊢
    -- Either the input ends here, or a token is read and less fuel is left for the rest.
    rcases hskip : skipSpace r.inFlow false r.keyAllowed r.input with ⟨keyAllowed, _ | ⟨x, s⟩⟩
    · rw [hskip] at h
      exact h
    · rw [hskip] at h
      obtain ⟨r₁, hexpire, h⟩ := Option.bind_eq_some_iff.mp h
      obtain ⟨r₂, hnext, h⟩ := Option.bind_eq_some_iff.mp h
      refine Option.bind_eq_some_iff.mpr ⟨r₁, hexpire, ?_⟩
      exact Option.bind_eq_some_iff.mpr ⟨r₂, hnext, ih h⟩

/-- Reading goes on with a reader that satisfies `P`. It may fail instead, unless it is `sure`
that it does not. -/
def Goes (sure : Prop) (r : TokenReader) (P : TokenReader → Prop) : Prop :=
  (∃ k r', P r' ∧ (sure → r'.input.length + k ≤ r.input.length)
      ∧ ∀ fuel, run (fuel + k) r = run fuel r')
    ∨ ¬sure ∧ ∀ fuel, run fuel r = none

namespace Goes

variable {P Q : TokenReader → Prop}

theorem refl (h : P r) : Goes sure r P :=
  .inl ⟨0, r, h, fun _ => le_rfl, fun _ => rfl⟩

/-- Reading goes on and on. If it fails later, it fails with more fuel as well, and so from the
start. -/
theorem trans (h : Goes sure r P) (h' : ∀ r', P r' → Goes sure r' Q) : Goes sure r Q := by
  obtain ⟨k, r₁, hr₁, hle, hrun⟩ | hfails := h
  · obtain ⟨k', r₂, hr₂, hle', hrun'⟩ | ⟨hnot, hfails⟩ := h' r₁ hr₁
    · refine .inl ⟨k' + k, r₂, hr₂, ?_, ?_⟩
      · intro hsure
        have hfirst := hle hsure
        have hsecond := hle' hsure
        omega
      · intro fuel
        rw [← Nat.add_assoc, hrun, hrun']
    · -- If it were read from the start with some fuel, it would be with `k` more, and so from
      -- there.
      refine .inr ⟨hnot, fun fuel => ?_⟩
      by_contra hread
      obtain ⟨ts, hts⟩ := Option.ne_none_iff_exists'.mp hread
      have hlater := run_add hts k
      rw [hrun, hfails] at hlater
      exact absurd hlater (by simp)
  · exact .inr hfails

theorem mono (h : Goes sure r P) (hP : ∀ r', P r' → Q r') : Goes sure r Q :=
  h.trans fun r' hr' => refl (hP r' hr')

/-- A step that takes a character, if it does not fail. -/
theorem step {next : Option TokenReader}
    (hrun : ∀ fuel, run (fuel + 1) r = next.bind (run fuel))
    (hnext : Yields sure next fun r' => (sure → r'.input.length < r.input.length) ∧ P r') :
    Goes sure r P := by
  -- Where no token is read, every fuel fails, which only an unsure document allows.
  cases next with
  | none =>
    refine .inr ⟨fun hsure => ?_, fun fuel => ?_⟩
    · obtain ⟨r', h⟩ := hnext.total hsure
      exact absurd h (by simp)
    · cases fuel with
      | zero => rfl
      | succ fuel => rw [hrun, Option.bind_none]
  | some r' =>
    obtain ⟨hlt, hP⟩ := hnext.sound r' rfl
    exact .inl ⟨1, r', hP, hlt, fun fuel => by rw [hrun, Option.bind_some]⟩

/-- The fuel suffices, since each step takes a character. -/
theorem yields {P' : List Token → Prop} (h : Goes sure r P)
    (h' : ∀ r', P r' → ∀ fuel, Yields sure (run (fuel + 1) r') P') :
    Yields sure (run (r.input.length + 1) r) P' := by
  obtain ⟨k, r₁, hr₁, hle, hrun⟩ | ⟨hnot, hfails⟩ := h
  · refine ⟨fun ts hts => ?_, fun hsure => ?_⟩
    · have hlater := run_add hts k
      rw [hrun] at hlater
      exact (h' r₁ hr₁ _).sound ts hlater
    · obtain ⟨ts, hts⟩ := (h' r₁ hr₁ (r.input.length - k)).total hsure
      -- There is a character for each of the `k` steps, so enough fuel is left for the others.
      have hfuel : r.input.length + 1 = r.input.length - k + 1 + k := by
        have hlength := hle hsure
        omega
      exact ⟨ts, by rw [hfuel, hrun, hts]⟩
  · rw [hfails]
    exact .none hnot

end Goes

/-! ### Between two tokens -/

/-- The reader has `cs` before it, up to white space, and the tokens `T` behind it, the last
first, inside of so many brackets. No place where a key may have begun must be one. What is
before it is legible if that is `known`. -/
structure Between (ok : List Char → Bool) (known : Prop) (r : TokenReader) (cs : List Char)
    (T : List Token) (depth : Nat) : Prop where
  shows : ∃ cs', Shows r.input cs' ∧ dropSpace cs' = dropSpace cs
    ∧ (known → Site.Legible ok ⟨depth, .outside []⟩ cs')
  tokens : r.tokens = T
  columns : r.columns = []
  depth : r.outer.length = depth
  free : ∀ k, some k ∈ r.candidate :: r.outer → k.required = false

/-- What is before the reader counts up to white space only. -/
theorem Between.congr (h : r.Between ok known cs T depth) (heq : dropSpace cs' = dropSpace cs) :
    r.Between ok known cs' T depth where
  shows := by
    obtain ⟨cs₁, hs, hcs₁, hlegible⟩ := h.shows
    exact ⟨cs₁, hs, hcs₁.trans heq.symm, hlegible⟩
  tokens := h.tokens
  columns := h.columns
  depth := h.depth
  free := h.free

/-- Inside of a bracket is in the flow. -/
theorem inFlow_of_depth (h : r.outer.length = depth + 1) : r.inFlow = true := by
  unfold TokenReader.inFlow
  cases houter : r.outer with
  | nil => exact absurd h (by simp [houter])
  | cons k outer => rfl

/-- The reader between two tokens inside of a bracket is in the flow. -/
theorem Between.inFlow (h : r.Between ok known cs T (depth + 1)) : r.inFlow = true :=
  inFlow_of_depth h.depth

/-- Out of the flow no bracket is open. -/
theorem Between.depth_eq_zero (h : r.Between ok known cs T depth) (hflow : r.inFlow = false) :
    depth = 0 := by
  cases depth with
  | zero => rfl
  | succ depth => exact absurd h.inFlow (by simp [hflow])

/-- Skipping does not pass over a character like this. -/
def Stands (c : Char) : Prop :=
  isSpace c = false ∧ c ≠ '#' ∧ c ≠ '\uFEFF'

/-- The next token begins with a character that skipping does not pass over. -/
def Clear (cs : List Char) : Prop :=
  ∀ c, (dropSpace cs).head? = some c → Stands c

/-- Where neither space nor a comment begins, there is no white space. -/
theorem Clear.solid (h : Clear cs) : Solid cs :=
  fun c hc => (h c hc).1

theorem Clear.congr (h : Clear cs) (heq : dropSpace cs' = dropSpace cs) : Clear cs' :=
  fun c hc => h c (heq ▸ hc)

/-- A character that is no white space is the first of the next token. -/
theorem head?_of_shows (hs : Shows (x :: s) cs) (hx : isSpace x.char = false) :
    (dropSpace cs).head? = some x.char := by
  rw [hs.dropSpace_eq hx]
  obtain ⟨c, cs, rfl, ⟨-, rfl, -⟩ | ⟨hbreak, -⟩⟩ := hs.of_cons
  · rfl
  · rw [isSpace_of_isBreak hbreak] at hx
    exact absurd hx (by simp)

/-- Skipping space adds nothing. -/
theorem length_skipSpace_le (inFlow inComment keyAllowed : Bool) (s : Input) :
    (skipSpace inFlow inComment keyAllowed s).2.length ≤ s.length := by
  fun_induction skipSpace inFlow inComment keyAllowed s with
  | case1 => exact le_rfl
  | case2 _ _ _ _ _ ih => exact Nat.le_succ_of_le ih
  | case3 _ _ _ _ _ _ ih => exact Nat.le_succ_of_le ih
  | case4 _ _ _ _ _ _ _ ih => exact Nat.le_succ_of_le ih
  | case5 => exact le_rfl

/-- Skipping stops at once where the next token is. -/
theorem skipSpace_of_stands (hx : Stands x.char) (inFlow keyAllowed : Bool) (s : Input) :
    skipSpace inFlow false keyAllowed (x :: s) = (keyAllowed, x :: s) := by
  obtain ⟨hspace, hnumber, hbom⟩ := hx
  obtain ⟨hblank, hbreak⟩ := Bool.or_eq_false_iff.mp hspace
  have hne : x.char ≠ ' ' ∧ x.char ≠ '\t' := by
    constructor <;> intro h <;> exact absurd hblank (by rw [h]; decide)
  simp [skipSpace, hbreak, hnumber, hbom, hne]

/-- Inside of brackets all blanks are passed over. -/
theorem skipSpace_blanks {blanks : List Char} (hblanks : ∀ b ∈ blanks, isBlank b = true)
    (hc : Stands c) (keyAllowed : Bool) (index line column : Nat) :
    (skipSpace true false keyAllowed (Input.locate index line column (blanks ++ c :: cs))).2
      = Input.locate (index + blanks.length) line (column + blanks.length) (c :: cs) := by
  induction blanks generalizing index column with
  | nil =>
    rw [List.nil_append, locate_cons (isBreak_of_not_isSpace hc.1), skipSpace_of_stands hc]
    exact (locate_cons (isBreak_of_not_isSpace hc.1) cs).symm
  | cons b blanks ih =>
    obtain ⟨hb, hrest⟩ := List.forall_mem_cons.mp hblanks
    have hblank : b = ' ' ∨ b = '\t' := by simpa [isBlank] using hb
    -- Neither blank breaks the line, so the place moves by one column each.
    have hbreak : isBreak b = false := by obtain rfl | rfl := hblank <;> rfl
    rw [List.cons_append, locate_cons hbreak, List.length_cons, Nat.add_comm blanks.length,
      ← Nat.add_assoc, ← Nat.add_assoc, ← ih hrest (index + 1) (column + 1)]
    obtain rfl | rfl := hblank <;> simp [skipSpace, isBreak]

/-- Skipping leads to the next token, or to a tab, but only outside of brackets and not in a
legible document. -/
theorem skipSpace_shows (ok : List Char → Bool) (inFlow keyAllowed : Bool) {inComment : Bool}
    (hcomment : inComment = false) (hs : Shows s cs) (hclear : Clear cs) :
    ∃ keyAllowed' s', skipSpace inFlow inComment keyAllowed s = (keyAllowed', s')
      ∧ (keyAllowed = true → keyAllowed' = true)
      ∧ (Shows s' (dropSpace cs) ∨ (inFlow = false ∧ ¬Site.Legible ok ⟨0, .outside []⟩ cs)
        ∧ ∃ x s'', s' = x :: s'' ∧ x.char = '\t') := by
  fun_induction skipSpace inFlow inComment keyAllowed s generalizing cs with
  | case1 inComment keyAllowed =>
    obtain rfl := hs.eq_nil
    exact ⟨keyAllowed, [], rfl, id, .inl hs⟩
  | case2 inComment keyAllowed x s hbreak ih =>
    obtain ⟨cs', hs', hbehind⟩ := hs.space (isSpace_of_isBreak hbreak) hclear.solid
    have heq := hbehind.dropSpace_eq
    obtain ⟨keyAllowed', s', hskip, hallowed, hs''⟩ := ih rfl hs' (hclear.congr heq)
    refine ⟨keyAllowed', s', hskip, fun h => hallowed (by rw [h, Bool.true_or]), ?_⟩
    exact hs''.imp (heq ▸ ·) (.imp_left (.imp_right (mt (·.behind hbehind))))
  | case3 inComment keyAllowed x s hbreak hmark ih =>
    -- No comment can begin here.
    have hx : x.char = '#' := by simpa [hcomment] using hmark
    have hhead := head?_of_shows hs (by rw [hx]; decide)
    exact absurd hx (hclear _ hhead).2.1
  | case4 inComment keyAllowed x s hbreak hmark hskipped ih =>
    have hspace : isSpace x.char = true := by
      by_contra hnot
      have hhead := head?_of_shows hs (by simpa using hnot)
      have hbom := (hclear _ hhead).2.2
      simp only [Bool.or_eq_true, Bool.and_eq_true, decide_eq_true_eq, hbom, false_and,
        or_false] at hskipped
      obtain hx | ⟨hx, -⟩ := hskipped <;> exact hnot (by rw [hx]; decide)
    obtain ⟨cs', hs', hbehind⟩ := hs.space hspace hclear.solid
    have heq := hbehind.dropSpace_eq
    obtain ⟨keyAllowed', s', hskip, hallowed, hs''⟩ := ih rfl hs' (hclear.congr heq)
    refine ⟨keyAllowed', s', hskip, hallowed, ?_⟩
    exact hs''.imp (heq ▸ ·) (.imp_left (.imp_right (mt (·.behind hbehind))))
  | case5 inComment keyAllowed x s hbreak hmark hskipped =>
    refine ⟨keyAllowed, x :: s, rfl, id, ?_⟩
    cases hspace : isSpace x.char with
    | false =>
      rw [hs.dropSpace_eq hspace]
      exact .inl hs
    | true =>
      -- The only white space that is not passed over is a tab.
      have htab : x.char = '\t' := by
        simp only [isSpace, isBlank, hbreak, Bool.or_eq_true, decide_eq_true_eq] at hspace
        simp only [Bool.or_eq_true, decide_eq_true_eq, not_or] at hskipped
        exact (hspace.resolve_right (by simp)).resolve_left hskipped.1.1
      refine .inr ⟨⟨?_, ?_⟩, x, s, rfl, htab⟩
      · by_contra hflow
        exact hskipped (by simp [htab, hflow])
      · obtain ⟨c, cs, rfl, ⟨-, hc, -⟩ | ⟨hnot, -⟩⟩ := hs.of_cons
        · rw [← hc, htab]
          exact Site.Legible.not_tab
        · exact absurd hnot hbreak

/-! ### One token -/

/-- A place that need not be a key may be given up. -/
theorem exists_expire {k : Option PossibleKey} (x : Located)
    (hk : ∀ k', k = some k' → k'.required = false) :
    ∃ k', expire x k = some k' ∧ (k' = k ∨ k' = none) := by
  cases k with
  | none => exact ⟨none, rfl, .inl rfl⟩
  | some k =>
    rw [expire, hk k rfl]
    split
    · exact ⟨none, rfl, .inr rfl⟩
    · exact ⟨some k, rfl, .inl rfl⟩

/-- Places of outer brackets may be given up as well, and as many of them are left. -/
theorem exists_mapM_expire {outer : List (Option PossibleKey)} (x : Located)
    (houter : ∀ k, some k ∈ outer → k.required = false) :
    ∃ outer', outer.mapM (expire x) = some outer' ∧ outer'.length = outer.length
      ∧ ∀ k, some k ∈ outer' → k.required = false := by
  induction outer with
  | nil => exact ⟨[], rfl, rfl, houter⟩
  | cons k outer ih =>
    obtain ⟨k', hk', hsame⟩ := exists_expire x fun k' h => houter k' (h ▸ List.mem_cons_self)
    obtain ⟨outer', houter', hlength, hfree⟩ := ih fun k h => houter k (List.mem_cons_of_mem _ h)
    refine ⟨k' :: outer', ?_, ?_, ?_⟩
    · rw [List.mapM_cons, hk', houter']
      rfl
    · rw [List.length_cons, List.length_cons, hlength]
    · intro k₀ hmem
      obtain heq | hmem := List.mem_cons.mp hmem
      · -- A place that is left is one that was there.
        obtain rfl | rfl := hsame
        · exact houter k₀ (heq ▸ List.mem_cons_self)
        · exact absurd heq (by simp)
      · exact hfree k₀ hmem

/-- A place that is not too far away is kept. -/
theorem expire_of_near {k : PossibleKey} (hline : k.first.line = x.line)
    (hindex : x.index ≤ k.first.index + 1024) : expire x (some k) = some (some k) := by
  rw [expire, if_neg]
  omega

/-- The reader in front of the next token `x`, with what is behind it in `r`. -/
structure Reaches (r r' : TokenReader) (x : Located) (s : Input) : Prop where
  input : r'.input = x :: s
  tokens : r'.tokens = r.tokens
  columns : r'.columns = []
  depth : r'.outer.length = r.outer.length
  free : ∀ k, some k ∈ r'.candidate :: r'.outer → k.required = false
  candidate : r'.candidate = r.candidate ∨ r'.candidate = none
  near : ∀ k, r.candidate = some k → k.first.line = x.line → x.index ≤ k.first.index + 1024 →
    r'.candidate = some k
  keyAllowed : r.keyAllowed = true → r'.keyAllowed = true

/-- Places that are too far away are given up, and nothing else changes. -/
theorem exists_expireAll (hinput : r.input = x :: s) (hcolumns : r.columns = [])
    (hfree : ∀ k, some k ∈ r.candidate :: r.outer → k.required = false) :
    ∃ r', r.expireAll x = some r' ∧ r.Reaches r' x s := by
  obtain ⟨hcandidate, houter⟩ : (∀ k, r.candidate = some k → k.required = false)
      ∧ ∀ k, some k ∈ r.outer → k.required = false :=
    ⟨fun k h => hfree k (h ▸ List.mem_cons_self), fun k h => hfree k (List.mem_cons_of_mem _ h)⟩
  obtain ⟨candidate, hexpire, hsame⟩ := exists_expire x hcandidate
  obtain ⟨outer, hmapM, hlength, hfree'⟩ := exists_mapM_expire x houter
  refine ⟨{ r with candidate, outer }, ?_, hinput, rfl, hcolumns, hlength, ?_, hsame, ?_, id⟩
  · rw [expireAll, hexpire, hmapM]
    rfl
  · intro k hmem
    obtain heq | hmem := List.mem_cons.mp hmem
    · obtain rfl | rfl := hsame
      · exact hcandidate k heq.symm
      · exact absurd heq (by simp)
    · exact hfree' k hmem
  · -- A place on the line of the token, and not too far in front of it, is not given up.
    intro k hk hline hindex
    rw [hk, expire_of_near hline hindex] at hexpire
    exact (Option.some.inj hexpire).symm

/-- No token begins with a tab. -/
theorem next_tab (hx : x.char = '\t') (r : TokenReader) (s : Input) : r.next x s = none := by
  have hmark : atDocumentMark (x :: s) = false :=
    atDocumentMark_of_ne (by simp [hx]) (by simp [hx]) s
  simp [next, hx, hmark, beginsPlain, isSpace, isBlank]

/-- Where no column is open, no block is closed. -/
theorem close_of_columns (h : r.columns = []) (p : Nat → Bool) : r.close p = r := by
  unfold close
  split
  · rfl
  · rw [h]
    cases r
    simp_all

/-- What the reader finds at the next token `x`, which begins with `c`. -/
structure Finds (ok : List Char → Bool) (known : Prop) (depth : Nat) (r : TokenReader)
    (x : Located) (s : Input) (c : Char) (cs : List Char) : Prop where
  char : x.char = c
  shows : Shows (x :: s) (c :: cs)
  rest : Shows s cs
  legible : known → Site.Legible ok ⟨depth, .outside []⟩ (c :: cs)
  skipped : (skipSpace r.inFlow false r.keyAllowed r.input).2 = x :: s

/-- Skipping space stops in front of the next token `x`, which is then all that is left to read,
or in front of a tab outside of brackets, which no legible document has. -/
theorem Between.exists_step (hr : r.Between ok known cs T depth) (hcs : dropSpace cs = c :: cs')
    (hc : Stands c) : ∃ x s r₁, s.length < r.input.length
      ∧ (∀ fuel, run (fuel + 1) r = (r₁.next x s).bind (run fuel))
      ∧ ((r.Finds ok known depth x s c cs' ∧ r.Reaches r₁ x s)
        ∨ (r.inFlow = false ∧ ¬known ∧ x.char = '\t')) := by
  obtain ⟨cs₁, hs, hcs₁, hlegible⟩ := hr.shows
  rw [hcs] at hcs₁
  -- Skipping space stops at `c`, which neither is space nor opens a comment.
  have hclear : Clear cs₁ := by
    intro c' hc'
    rw [hcs₁] at hc'
    obtain rfl := Option.some.inj hc'
    exact hc
  obtain ⟨keyAllowed, s', hskip, hallowed, hs'⟩ :=
    skipSpace_shows ok r.inFlow r.keyAllowed rfl hs hclear
  have hlength := length_skipSpace_le r.inFlow false r.keyAllowed r.input
  rw [hskip] at hlength
  rw [hcs₁] at hs'
  -- The document is not at its end, since `c` is left.
  rcases s' with _ | ⟨x, s⟩
  · obtain hs' | ⟨-, x, s, heq, -⟩ := hs'
    · exact absurd hs'.eq_nil (by simp)
    · exact absurd heq (by simp)
  obtain ⟨r₁, hexpire, hreaches⟩ := exists_expireAll
    (r := { r with keyAllowed, input := x :: s }) rfl hr.columns hr.free
  refine ⟨x, s, r₁, hlength, fun fuel => ?_, ?_⟩
  · -- No column is open, so closing blocks does nothing.
    rw [run, hskip]
    change Option.bind (expireAll { r with keyAllowed, input := x :: s } x) _ = _
    rw [hexpire, Option.bind_some, close_of_columns hreaches.columns]
    rfl
  obtain hs' | ⟨⟨hflow, hnot⟩, x', s'', heq, htab⟩ := hs'
  · obtain ⟨x', s'', heq, hx, hrest⟩ := hs'.cons (isBreak_of_not_isSpace hc.1)
    obtain ⟨rfl, rfl⟩ := List.cons.inj heq
    refine .inl ⟨⟨hx, hs', hrest, fun h => ?_, by rw [hskip]⟩,
      { hreaches with keyAllowed := fun h => hreaches.keyAllowed (hallowed h) }⟩
    have hbehind : Behind (c :: cs') cs₁ := hcs₁ ▸ behind_dropSpace cs₁
    exact (hlegible h).behind hbehind
  · obtain ⟨rfl, rfl⟩ := List.cons.inj heq
    obtain rfl := hr.depth_eq_zero hflow
    exact .inr ⟨hflow, fun h => hnot (hlegible h), htab⟩

/-- **One step of reading** leads to the next token, and goes on like that token. -/
theorem Between.goes {P : TokenReader → Prop} (hr : r.Between ok known cs T depth)
    (hknown : sure → known ∨ r.inFlow = true) (hcs : dropSpace cs = c :: cs') (hc : Stands c)
    (hnext : ∀ x s r₁, r.Finds ok known depth x s c cs' → r.Reaches r₁ x s →
      Yields sure (r₁.next x s) fun r₂ => (sure → r₂.input.length ≤ s.length) ∧ P r₂) :
    Goes sure r P := by
  -- The next character begins a token, or it is a tab that may not stand there.
  obtain ⟨x, s, r₁, hlength, hrun, ⟨hfinds, hreaches⟩ | ⟨hflow, hnot, htab⟩⟩ :=
    hr.exists_step hcs hc
  · refine .step hrun ((hnext x s r₁ hfinds hreaches).mono id ?_)
    rintro r₂ ⟨hle, hP⟩
    exact ⟨fun hsure => (hle hsure).trans_lt hlength, hP⟩
  · rw [next_tab htab] at hrun
    refine .step hrun (.none fun hsure => ?_)
    obtain h | h := hknown hsure
    · exact hnot h
    · exact absurd h (by simp [hflow])

/-! ### What a token does -/

theorem atDocumentMark_of_char (hx : x.char = c) (hc : c ≠ '-' ∧ c ≠ '.') (s : Input) :
    atDocumentMark (x :: s) = false :=
  atDocumentMark_of_ne (hx ▸ hc.1) (hx ▸ hc.2) s

theorem next_openBracket (hx : x.char = '[') (r : TokenReader) (s : Input) :
    r.next x s = r.openFlow x .openBracket s := by
  simp [next, hx, atDocumentMark_of_char hx (by decide)]

theorem next_openBrace (hx : x.char = '\x7b') (r : TokenReader) (s : Input) :
    r.next x s = r.openFlow x .openBrace s := by
  simp [next, hx, atDocumentMark_of_char hx (by decide)]

theorem next_closeBracket (hx : x.char = ']') (r : TokenReader) (s : Input) :
    r.next x s = r.closeFlow .closeBracket s := by
  simp [next, hx, atDocumentMark_of_char hx (by decide)]

theorem next_closeBrace (hx : x.char = '\x7d') (r : TokenReader) (s : Input) :
    r.next x s = r.closeFlow .closeBrace s := by
  simp [next, hx, atDocumentMark_of_char hx (by decide)]

theorem next_comma (hx : x.char = ',') (r : TokenReader) (s : Input) :
    r.next x s = r.comma s := by
  simp [next, hx, atDocumentMark_of_char hx (by decide)]

theorem next_colon (hx : x.char = ':') (hflow : r.inFlow = true) (s : Input) :
    r.next x s = r.colon x s := by
  simp [next, hx, hflow, atDocumentMark_of_char hx (by decide)]

theorem next_quote (hx : x.char = '"') (r : TokenReader) (s : Input) :
    r.next x s = r.node x (.scalar .other) (readDouble (s.length + 1) s) := by
  simp [next, hx, atDocumentMark_of_char hx (by decide)]

/-- A numeral or a word begins a plain scalar. -/
theorem next_plain {ds rest : List Char} (hds : PlainText ds) (hs : Shows (x :: s) (ds ++ rest))
    (hflow : r.inFlow = true) : r.next x s = r.plain x := by
  have hmark := atDocumentMark_plain hds hs
  obtain ⟨hchars, c, ds', rfl, hstart⟩ := hds
  obtain ⟨hc, hds'⟩ := List.forall_mem_cons.mp hchars
  obtain ⟨x', s', heq, rfl, hs'⟩ := hs.cons (isBreak_of_not_isSpace (isPlainChar_spec hc).1)
  obtain ⟨rfl, rfl⟩ := List.cons.inj heq
  have hne : ∀ d, isPlainChar d = false → x.char ≠ d := by
    rintro d hd rfl
    exact absurd hc (by simp [hd])
  -- A minus sign is no hyphen in front of an item, since a digit follows.
  have hhyphen : ¬(x.char = '-' ∧ atSpace s = true) := by
    rintro ⟨hx, hspace⟩
    obtain hstart | ⟨-, d, ds'', rfl, -⟩ := hstart
    · exact absurd hstart (by rw [hx]; decide)
    · obtain ⟨hd, -⟩ := List.forall_mem_cons.mp hds'
      have hdigit := (isPlainChar_spec hd).1
      obtain ⟨y, s', rfl, hy, -⟩ := hs'.cons (isBreak_of_not_isSpace hdigit)
      exact absurd hspace (by simp [atSpace, hy, hdigit])
  have hbegins : beginsPlain true x.char = true := by
    unfold beginsPlain
    split
    · rfl
    · simp (disch := decide) [hne, (isPlainChar_spec hc).1]
  simp (disch := decide) [next, hmark, hflow, hne, hhyphen, hbegins]

/-- A place that need not be a key is dropped without complaint. -/
theorem dropCandidate_of_free (h : ∀ k, r.candidate = some k → k.required = false) :
    r.dropCandidate = some { r with candidate := none } := by
  unfold dropCandidate
  cases hcandidate : r.candidate with
  -- There is nothing to be dropped.
  | none =>
    have heq : r = { r with candidate := none } := by
      cases r
      cases hcandidate
      rfl
    exact congrArg some heq
  | some k => simp [h k hcandidate]

/-- Where a key may begin, the place is noted, and it need not be one. -/
theorem exists_noteCandidate (hcolumns : r.columns = [])
    (h : ∀ k, r.candidate = some k → k.required = false) (x : Located) :
    ∃ candidate, r.noteCandidate x = some { r with candidate }
      ∧ (∀ k, candidate = some k → k.required = false)
      ∧ (r.keyAllowed = true → ∃ k, candidate = some k ∧ k.position = r.tokens.length
        ∧ k.first = x) := by
  unfold noteCandidate
  -- Where a key may begin, the place is noted and another one dropped; elsewhere nothing happens.
  split
  · next hallowed =>
    rw [dropCandidate_of_free h]
    refine ⟨_, rfl, ?_, fun _ => ⟨_, rfl, rfl, rfl⟩⟩
    rintro k ⟨⟩
    simp [hcolumns]
  · next hallowed =>
    exact ⟨r.candidate, rfl, h, fun hallowed' => absurd hallowed' hallowed⟩

/-! ### From one token to the next -/

/-- The last place where a key may have begun need not be one. -/
theorem Between.candidate_free (hr : r.Between ok known cs T depth) (k : PossibleKey)
    (hk : r.candidate = some k) : k.required = false :=
  hr.free k (hk ▸ List.mem_cons_self)

namespace Reaches

theorem candidate_free (h : r.Reaches r' x s) (k : PossibleKey) (hk : r'.candidate = some k) :
    k.required = false :=
  h.free k (hk ▸ List.mem_cons_self)

/-- The reader that has reached a token inside of a bracket is in the flow. -/
theorem inFlow (h : r.Reaches r' x s) (hr : r.Between ok known cs T (depth + 1)) :
    r'.inFlow = true :=
  inFlow_of_depth (h.depth.trans hr.depth)

/-- Behind the token, if it is one of its own. -/
theorem between (h : r.Reaches r' x s) (hr : r.Between ok known cs T depth)
    {candidate : Option PossibleKey} {keyAllowed : Bool} {t : Token} {rest : Input}
    (hs : Shows rest cs') (hlegible : sure → Site.Legible ok ⟨depth, .outside []⟩ cs')
    (hcandidate : ∀ k, candidate = some k → k.required = false) :
    Between ok sure { r' with tokens := t :: r'.tokens, candidate, keyAllowed, input := rest } cs'
      (t :: T) depth where
  shows := ⟨cs', hs, rfl, hlegible⟩
  tokens := by rw [h.tokens, hr.tokens]
  columns := h.columns
  depth := h.depth.trans hr.depth
  free := by
    intro k hk
    obtain heq | hk := List.mem_cons.mp hk
    · exact hcandidate k heq.symm
    · exact h.free k (List.mem_cons_of_mem _ hk)

end Reaches

/-- A mark of the flow stands, is not part of a numeral or word, and opens no text. -/
theorem isFlowMark_spec (hc : isFlowMark c = true) :
    Stands c ∧ isPlainChar c = false ∧ c ≠ '"' := by
  unfold Stands
  simp only [isFlowMark, List.mem_cons, List.not_mem_nil, or_false, decide_eq_true_eq] at hc
  obtain rfl | rfl | rfl | rfl | rfl := hc <;> decide

/-- What follows a mark is legible inside of as many brackets as are open behind it. -/
theorem Finds.behind_mark (h : r.Finds ok known depth x s c cs) (hc : isFlowMark c = true) :
    known → Site.Legible ok ⟨depthBehind depth c, .outside []⟩ cs :=
  fun hknown => (h.legible hknown).mark (isFlowMark_spec hc).2

namespace Between

/-- A bracket or brace opens something. -/
theorem opening {t : Token} (hr : r.Between ok sure cs T depth) (hcs : dropSpace cs = c :: cs')
    (hc : isFlowMark c = true) (hdepth : ∀ depth, depthBehind depth c = depth + 1)
    (hnext : ∀ x s r, x.char = c → next r x s = r.openFlow x t s) :
    Goes sure r fun r' => r'.Between ok sure cs' (t :: T) (depth + 1) ∧ r'.keyAllowed = true := by
  refine hr.goes .inl hcs (isFlowMark_spec hc).1 fun x s r₁ hfinds hreaches => ?_
  obtain ⟨candidate, hnote, hfree, -⟩ :=
    exists_noteCandidate hreaches.columns hreaches.candidate_free x
  rw [hnext x s r₁ hfinds.char, openFlow, hnote]
  refine .some ⟨fun _ => le_rfl, ?_, rfl⟩
  refine { shows := ⟨cs', hfinds.rest, rfl, hdepth depth ▸ hfinds.behind_mark hc⟩, tokens := ?_,
           columns := hreaches.columns, depth := ?_, free := ?_ }
  · change t :: r₁.tokens = _
    rw [hreaches.tokens, hr.tokens]
  · change r₁.outer.length + 1 = _
    rw [hreaches.depth, hr.depth]
  · -- The new place stands for the bracket itself, and the ones below are those of before.
    intro k hk
    obtain heq | hk := List.mem_cons.mp hk
    · exact absurd heq (by simp)
    obtain heq | hk := List.mem_cons.mp hk
    · exact hfree k heq.symm
    · exact hreaches.free k (List.mem_cons_of_mem _ hk)

/-- A bracket or brace closes something. -/
theorem closing {t : Token} (hr : r.Between ok sure cs T (depth + 1))
    (hcs : dropSpace cs = c :: cs') (hc : isFlowMark c = true)
    (hdepth : ∀ depth, depthBehind (depth + 1) c = depth)
    (hnext : ∀ x s r, x.char = c → next r x s = r.closeFlow t s) :
    Goes sure r fun r' => r'.Between ok sure cs' (t :: T) depth := by
  refine hr.goes .inl hcs (isFlowMark_spec hc).1 fun x s r₁ hfinds hreaches => ?_
  rw [hnext x s r₁ hfinds.char, closeFlow, dropCandidate_of_free hreaches.candidate_free]
  -- Inside of a bracket there is a place to return to.
  have hlength := hreaches.depth.trans hr.depth
  rcases houter : r₁.outer with _ | ⟨candidate, outer⟩
  · exact absurd hlength (by simp [houter])
  rw [houter] at hlength
  refine .some ⟨fun _ => le_rfl, ?_⟩
  refine { shows := ⟨cs', hfinds.rest, rfl, hdepth depth ▸ hfinds.behind_mark hc⟩, tokens := ?_,
           columns := hreaches.columns, depth := ?_, free := ?_ }
  · change t :: r₁.tokens = _
    rw [hreaches.tokens, hr.tokens]
  · exact Nat.succ.inj hlength
  · intro k hk
    refine hreaches.free k (List.mem_cons_of_mem _ ?_)
    rw [houter]
    exact hk

/-- A comma stands between two items or members, and a key may follow. -/
theorem comma (hr : r.Between ok sure cs T depth) (hcs : dropSpace cs = ',' :: cs') :
    Goes sure r fun r' => r'.Between ok sure cs' (.comma :: T) depth ∧ r'.keyAllowed = true := by
  have hc : isFlowMark ',' = true := rfl
  refine hr.goes .inl hcs (isFlowMark_spec hc).1 fun x s r₁ hfinds hreaches => ?_
  rw [next_comma hfinds.char, TokenReader.comma, dropCandidate_of_free hreaches.candidate_free]
  have hnone : ∀ k : PossibleKey, none = some k → k.required = false := fun _ h => nomatch h
  exact .some ⟨fun _ => le_rfl, hreaches.between hr hfinds.rest (hfinds.behind_mark hc) hnone, rfl⟩

end Between

/-- The reader is behind a quoted text that began at `x`, and has `cs` before it. -/
structure BehindText (ok : List Char → Bool) (sure : Prop) (r : TokenReader) (x : Located)
    (cs : List Char) (T : List Token) (depth : Nat) : Prop where
  between : r.Between ok False cs T depth
  shows : Shows r.input cs
  closed : sure → ∃ n column, r.input = Input.locate (x.index + n + 2) x.line column cs
    ∧ Site.Legible ok ⟨depth, .closed n⟩ cs

/-- A quoted text. Where a key may begin, the place is noted. -/
theorem Between.quote {text : Option String} {rest : List Char} (hr : r.Between ok sure cs T depth)
    (hcs : dropSpace cs = '"' :: cs') (hquoted : Quoted text cs' rest) :
    Goes sure r fun r' => ∃ t text' x, text = some (String.ofList t) ∧ ReadAs sure t text'
      ∧ r'.BehindText ok sure x rest (.scalar .other text' :: T) depth
      ∧ (r.keyAllowed = true → ∃ k, r'.candidate = some k ∧ k.position = T.length
        ∧ k.first = x) := by
  obtain ⟨hskips, htext⟩ := hquoted
  have hc : Stands '"' := by unfold Stands; decide
  refine hr.goes .inl hcs hc fun x s r₁ hfinds hreaches => ?_
  obtain ⟨candidate, hnote, hfree, hnoted⟩ :=
    exists_noteCandidate hreaches.columns hreaches.candidate_free x
  rw [next_quote hfinds.char, node, hnote]
  -- The text itself is read as in JSON, but for line breaks.
  refine (readDouble_quoted hfinds.shows hskips hfinds.legible).bind ?_
  rintro ⟨text', s'⟩ ⟨⟨t, ht, hread⟩, hrest, hle, hclosed⟩
  rw [ht] at htext
  refine .some ⟨hle, t, text', x, htext, hread, ⟨?_, hrest, hclosed⟩, ?_⟩
  · exact hreaches.between hr hrest (fun h => h.elim) hfree
  · intro hallowed
    obtain ⟨k, hk, hposition, hfirst⟩ := hnoted (hreaches.keyAllowed hallowed)
    exact ⟨k, hk, by rw [hposition, hreaches.tokens, hr.tokens], hfirst⟩

/-- A text that is a value is a token of its own. -/
theorem BehindText.followed (h : r.BehindText ok sure x cs T depth) (hcs : Followed cs) :
    r.Between ok sure cs T depth where
  shows := by
    refine ⟨cs, h.shows, rfl, fun hsure => ?_⟩
    obtain ⟨n, column, -, hclosed⟩ := h.closed hsure
    exact hclosed.closed_followed hcs
  tokens := h.between.tokens
  columns := h.between.columns
  depth := h.between.depth
  free := h.between.free

/-- At the colon of a legible key, the place of the key is still noted: it is near enough. -/
theorem BehindText.candidate_eq {y : Located} {r₁ : TokenReader} {k : PossibleKey}
    (h : r.BehindText ok sure x cs T (depth + 1)) (hcs : dropSpace cs = ':' :: cs')
    (hfinds : r.Finds ok False (depth + 1) y s ':' cs') (hreaches : r.Reaches r₁ y s)
    (hk : r.candidate = some k) (hfirst : k.first = x) (hsure : sure) : r₁.candidate = some k := by
  have hc : Stands ':' := by unfold Stands; decide
  obtain ⟨n, column, hinput, hclosed⟩ := h.closed hsure
  obtain ⟨blanks, rfl, hblanks, hshort, -⟩ := hclosed.closed_colon hcs
  have hskipped := hfinds.skipped
  rw [h.between.inFlow, hinput, skipSpace_blanks hblanks hc, locate_cons (by decide)] at hskipped
  -- Blanks do not leave the line, so the colon stands where its index says.
  obtain ⟨rfl, -⟩ := List.cons.inj hskipped
  refine hreaches.near k hk (by rw [hfirst]) ?_
  rw [hfirst]
  change x.index + n + 2 + blanks.length ≤ x.index + (longestKey + 2)
  omega

namespace Reaches

variable {t : Token} {r₁ : TokenReader} {y : Located}

/-- A colon with the place of its key noted puts in the token in front of the key. -/
theorem colon_noted {k : PossibleKey} (hreaches : r.Reaches r₁ y s)
    (hr : r.Between ok known cs (t :: T) (depth + 1)) (hk : r₁.candidate = some k)
    (hposition : k.position = T.length) (hs : Shows s cs')
    (hlegible : sure → Site.Legible ok ⟨depth + 1, .outside []⟩ cs') :
    Yields sure (r₁.colon y s) fun r' => (sure → r'.input.length ≤ s.length)
      ∧ r'.Between ok sure cs' (.value :: t :: .key :: T) (depth + 1) := by
  have htokens : r₁.tokens = t :: T := hreaches.tokens.trans hr.tokens
  -- All but the last token stand in front of the key.
  have hinsert : (r₁.insert k.position .key).tokens = t :: .key :: T := by
    rw [insert, htokens, hposition, List.length_cons, Nat.add_sub_cancel_left]
    rfl
  have hindent (start : Token) :
      (r₁.insert k.position .key).indent k.first.column k.position start
        = r₁.insert k.position .key := by
    rw [indent, if_pos]
    exact Bool.or_eq_true_iff.mpr (.inl (hreaches.inFlow hr))
  rw [TokenReader.colon, hk]
  dsimp only
  rw [hindent]
  refine .some ⟨fun _ => le_rfl, ?_⟩
  refine { shows := ⟨cs', hs, rfl, hlegible⟩, tokens := ?_, columns := hreaches.columns,
           depth := hreaches.depth.trans hr.depth, free := ?_ }
  · exact congrArg (Token.value :: ·) hinsert
  · intro k' hk'
    obtain heq | hk' := List.mem_cons.mp hk'
    · exact absurd heq (by simp)
    · exact hreaches.free k' (List.mem_cons_of_mem _ hk')

/-- A colon with no place noted for a key is a token like others. -/
theorem colon_free (hreaches : r.Reaches r₁ y s) (hr : r.Between ok known cs T (depth + 1))
    (hnone : r₁.candidate = none) (hs : Shows s cs')
    (hlegible : sure → Site.Legible ok ⟨depth + 1, .outside []⟩ cs') :
    Yields sure (r₁.colon y s) fun r' => (sure → r'.input.length ≤ s.length)
      ∧ r'.Between ok sure cs' (.value :: T) (depth + 1) := by
  rw [TokenReader.colon, hnone]
  dsimp only
  rw [openBlock, if_pos (hreaches.inFlow hr)]
  exact .some ⟨fun _ => le_rfl, hreaches.between hr hs hlegible hreaches.candidate_free⟩

end Reaches

/-- A colon behind a key. The token in front of the key is put in if its place is still noted,
which it is if the document is legible. -/
theorem BehindText.colon {t : Token} (h : r.BehindText ok sure x cs (t :: T) (depth + 1))
    (hcs : dropSpace cs = ':' :: cs')
    (hnoted : ∃ k, r.candidate = some k ∧ k.position = T.length ∧ k.first = x) :
    Goes sure r fun r' => ∃ keyed : Bool, (sure → keyed = true)
      ∧ r'.Between ok sure cs' (.value :: t :: (if keyed then .key :: T else T)) (depth + 1) := by
  have hc : Stands ':' := by unfold Stands; decide
  have hlegible (hsure : sure) : Site.Legible ok ⟨depth + 1, .outside []⟩ cs' := by
    obtain ⟨n, column, -, hclosed⟩ := h.closed hsure
    obtain ⟨blanks, -, -, -, hlegible⟩ := hclosed.closed_colon hcs
    exact hlegible
  obtain ⟨k, hk, hposition, hfirst⟩ := hnoted
  refine h.between.goes (fun _ => .inr h.between.inFlow) hcs hc fun y s r₁ hfinds hreaches => ?_
  rw [next_colon hfinds.char (hreaches.inFlow h.between)]
  have hkept := h.candidate_eq hcs hfinds hreaches hk hfirst
  -- The place of the key is noted still, or it was too far away.
  obtain hsame | hnone := hreaches.candidate
  · refine (hreaches.colon_noted h.between (hsame.trans hk) hposition hfinds.rest hlegible).mono
      id ?_
    rintro r' ⟨hle, hr'⟩
    exact ⟨hle, true, fun _ => rfl, hr'⟩
  · refine (hreaches.colon_free h.between hnone hfinds.rest hlegible).mono id ?_
    rintro r' ⟨hle, hr'⟩
    refine ⟨hle, false, fun hsure => ?_, hr'⟩
    exact absurd ((hkept hsure).symm.trans hnone) (by simp)

namespace Between

/-- A numeral or a word. -/
theorem plain {ds : List Char} (hr : r.Between ok sure cs T (depth + 1)) (hds : PlainText ds)
    (hcs : dropSpace cs = ds ++ cs') (hcs' : Followed cs') :
    Goes sure r fun r' => (sure → ok ds = true)
      ∧ r'.Between ok sure cs' (.scalar .plain ds :: T) (depth + 1) := by
  obtain ⟨hchars, c, ds', hcons, -⟩ := id hds
  obtain ⟨hspace, -, hnumber, -⟩ := isPlainChar_spec (hchars c (hcons ▸ List.mem_cons_self))
  have hbom : c ≠ '\uFEFF' := by
    rintro rfl
    exact absurd (hchars _ (hcons ▸ List.mem_cons_self)) (by decide)
  have hcs₁ : dropSpace cs = c :: (ds' ++ cs') := by rw [hcs, hcons, List.cons_append]
  refine hr.goes .inl hcs₁ ⟨hspace, hnumber, hbom⟩ fun x s r₁ hfinds hreaches => ?_
  have hxs := hfinds.shows
  have hlegible := hfinds.legible
  rw [← List.cons_append, ← hcons] at hxs hlegible
  -- The text may be a key: the reader notes that, and reads on.
  obtain ⟨candidate, hnote, hfree, -⟩ :=
    exists_noteCandidate hreaches.columns hreaches.candidate_free x
  have hflow := hreaches.inFlow hr
  have hinside : r₁.inside = 0 := by rw [inside, hreaches.columns]
  obtain ⟨scalar, hread, htext, hshorter, rest, hrest, hdrop⟩ :=
    readPlain_followed s.length hds hcs' hxs
  have hread : readPlain r₁.inFlow r₁.inside (r₁.input.length + 1) {} r₁.input = some scalar := by
    rw [hflow, hinside, hreaches.input]
    exact hread
  have hended (hsure : sure) : ok ds = true ∧ Site.Legible ok ⟨depth + 1, .outside []⟩ cs' := by
    have hword := ((hlegible hsure).plain hchars).followed hcs' (by simp [hcons])
    simpa using hword
  -- The reader may have gone past the space behind the text, which leaves the document legible.
  have hlegible' (hsure : sure) : Site.Legible ok ⟨depth + 1, .outside []⟩ rest := by
    obtain rfl | rfl := hdrop
    · exact (hended hsure).2
    · exact (hended hsure).2.behind (behind_dropSpace cs')
  have hspace' : dropSpace cs' = dropSpace rest := by
    obtain rfl | rfl := hdrop
    · rfl
    · exact (Json.dropSpace_dropSpace cs').symm
  rw [next_plain hds hxs hflow, TokenReader.plain, hnote]
  change Yields sure (Option.bind (readPlain r₁.inFlow r₁.inside (r₁.input.length + 1) {}
    r₁.input) _) _
  rw [hread]
  refine .some ⟨fun _ => Nat.le_of_lt_succ hshorter, fun hsure => (hended hsure).1, ?_⟩
  rw [htext]
  exact (hreaches.between hr hrest hlegible' hfree).congr hspace'

/-- Nothing but white space is left. -/
theorem done (hr : r.Between ok sure cs T depth) (hcs : dropSpace cs = []) (fuel : Nat) :
    Yields sure (run (fuel + 1) r) (· = T.reverse) := by
  obtain ⟨cs₁, hs, hcs₁, hlegible⟩ := hr.shows
  rw [hcs] at hcs₁
  have hclear : Clear cs₁ := by
    intro c hc
    rw [hcs₁] at hc
    exact absurd hc (by simp)
  obtain ⟨keyAllowed, s', hskip, -, hs'⟩ :=
    skipSpace_shows ok r.inFlow r.keyAllowed rfl hs hclear
  rw [hcs₁] at hs'
  rw [run, hskip]
  -- Skipping space reaches the end, or stops at a tab.
  obtain hs' | ⟨⟨hflow, hnot⟩, x, s, rfl, htab⟩ := hs'
  · obtain rfl := hs'.nil
    dsimp only
    rw [close_of_columns hr.columns, dropCandidate_of_free hr.candidate_free]
    exact .some (by rw [hr.tokens])
  · -- A tab is left over, which no token starts with.
    have hfails : (do
        let r ← expireAll { r with keyAllowed, input := x :: s } x
        run fuel (← (r.close (x.column < ·)).next x s)) = none := by
      cases expireAll { r with keyAllowed, input := x :: s } x with
      | none => rfl
      | some r₁ =>
        change Option.bind (next _ x s) _ = none
        rw [next_tab htab]
        rfl
    dsimp only
    rw [hfails]
    obtain rfl := hr.depth_eq_zero hflow
    exact .none fun hsure => hnot (hlegible hsure)

end Between

end Yaml.TokenReader

/-! ### The tokens of a tree -/

namespace Json

open Yaml (Token ReadAs)

/-- Between two items or members stands a comma. -/
def separator (first : Bool) : List Token :=
  if first then [] else [.comma]

mutual

/-- The YAML tokens of a tree. In a document that is surely passable, its numerals are admitted. -/
def Tree.Tokens (ok : List Char → Bool) (sure : Prop) : Tree → List Token → Prop
  | .null, ts => ts = [.scalar .plain ['n', 'u', 'l', 'l']]
  | .bool true, ts => ts = [.scalar .plain ['t', 'r', 'u', 'e']]
  | .bool false, ts => ts = [.scalar .plain ['f', 'a', 'l', 's', 'e']]
  | .number n, ts => ∃ ds, NumberWritten n ds ∧ (sure → ok ds = true) ∧ ts = [.scalar .plain ds]
  | .string s, ts => ∃ t text, s = some (String.ofList t) ∧ ReadAs sure t text
      ∧ ts = [.scalar .other text]
  | .array items, ts => ∃ ts', ts = .openBracket :: ts' ∧ items.Tokens ok sure true ts'
  | .object members, ts => ∃ ts', ts = .openBrace :: ts' ∧ members.Tokens ok sure true ts'
  | .broken _ _, _ => False

/-- The tokens of the items of a list, up to its closing bracket. -/
def Items.Tokens (ok : List Char → Bool) (sure : Prop) : Items → (first : Bool) → List Token → Prop
  | .closed, _, ts => ts = [.closeBracket]
  | .broken _, _, _ => False
  | .item t rest, first, ts => ∃ ts₁ ts₂, ts = separator first ++ (ts₁ ++ ts₂)
      ∧ t.Tokens ok sure ts₁ ∧ rest.Tokens ok sure false ts₂

/-- The tokens of the members of an object, up to its closing brace. The token in front of a key
may be missing, unless the document is surely passable. -/
def Members.Tokens (ok : List Char → Bool) (sure : Prop) :
    Members → (first : Bool) → List Token → Prop
  | .closed, _, ts => ts = [.closeBrace]
  | .broken _, _, _ => False
  | .noKey _, _, _ => False
  | .badKey _ _, _, _ => False
  | .member key t rest, first, ts => ∃ k text, ∃ keyed : Bool, ∃ ts₁ ts₂,
      ts = separator first
        ++ ((if keyed then [.key] else []) ++ .scalar .other text :: .value :: (ts₁ ++ ts₂))
      ∧ (sure → keyed = true) ∧ key = some (String.ofList k) ∧ ReadAs sure k text
      ∧ t.Tokens ok sure ts₁ ∧ rest.Tokens ok sure false ts₂

end

end Json

namespace Yaml.TokenReader

open Json (Tree Items Members separator)

variable {r : TokenReader} {cs cs' : List Char} {T : List Token} {depth : Nat} {first : Bool}
  {sure : Prop} {ok : List Char → Bool}

theorem followed_of_separated (h : Separated false cs cs') : Followed cs :=
  ⟨',', cs', h, List.mem_cons_self⟩

/-- Behind an item stands a comma or a bracket. -/
theorem followed_items {is : Items} (h : is.Written false cs cs') : Followed cs := by
  cases is with
  | closed => exact ⟨']', cs', h, by decide⟩
  | broken => exact h.elim
  | item t rest =>
    obtain ⟨cs₁, cs₂, hsep, -⟩ := h
    exact followed_of_separated hsep

/-- Behind a member stands a comma or a brace. -/
theorem followed_members {ms : Members} (h : ms.Written false cs cs') : Followed cs := by
  cases ms with
  | closed => exact ⟨'\x7d', cs', h, by decide⟩
  | broken => exact h.elim
  | noKey => exact h.elim
  | badKey => exact h.elim
  | member key t rest =>
    obtain ⟨cs₁, cs₂, cs₃, cs₄, cs₅, hsep, -⟩ := h
    exact followed_of_separated hsep

/-- Reading goes on in front of `cs`, with tokens that satisfy `P` behind it on top of `T`. -/
def Continues (ok : List Char → Bool) (sure : Prop) (r : TokenReader) (P : List Token → Prop)
    (cs : List Char) (T : List Token) (depth : Nat) : Prop :=
  Goes sure r fun r' => ∃ toks, P toks ∧ r'.Between ok sure cs (toks.reverse ++ T) depth

namespace Between

/-- The reader goes on in front of an item or a member. -/
theorem separator (hr : r.Between ok sure cs T depth) (hsep : Separated first cs cs')
    (hallowed : first = true → r.keyAllowed = true) :
    Goes sure r fun r' => r'.Between ok sure cs' ((separator first).reverse ++ T) depth
      ∧ r'.keyAllowed = true := by
  cases first with
  | true =>
    have hcs : dropSpace cs = cs' := hsep
    exact .refl ⟨hr.congr (by rw [← hcs, Json.dropSpace_dropSpace]), hallowed rfl⟩
  | false => exact hr.comma hsep

/-- The reader goes on behind a key and its colon. -/
theorem key {key : Option String} {cs₁ cs₂ : List Char} (hr : r.Between ok sure cs T (depth + 1))
    (hallowed : r.keyAllowed = true) (hcs : dropSpace cs = '"' :: cs₁) (hkey : Quoted key cs₁ cs₂)
    (hcs₂ : dropSpace cs₂ = ':' :: cs') :
    Goes sure r fun r' => ∃ k text, key = some (String.ofList k) ∧ ReadAs sure k text
      ∧ ∃ keyed : Bool, (sure → keyed = true) ∧ r'.Between ok sure cs'
        (.value :: .scalar .other text :: (if keyed then .key :: T else T)) (depth + 1) := by
  refine (hr.quote hcs hkey).trans ?_
  rintro r₁ ⟨k, text, x, hk, hread, hr₁, hnoted⟩
  exact (hr₁.colon hcs₂ (hnoted hallowed)).mono fun r' hr' => ⟨k, text, hk, hread, hr'⟩

/-- The reader goes on behind a bracket or brace and what it opens. -/
theorem bracketed {t : Token} {c : Char} {cs₁ : List Char} {P : List Token → Prop}
    (hr : r.Between ok sure cs T depth) (hcs : dropSpace cs = c :: cs₁)
    (hc : isFlowMark c = true) (hdepth : ∀ depth, depthBehind depth c = depth + 1)
    (hnext : ∀ x s r, x.char = c → next r x s = r.openFlow x t s)
    (hinside : ∀ r₁, r₁.Between ok sure cs₁ (t :: T) (depth + 1) → r₁.keyAllowed = true →
      Continues ok sure r₁ P cs' (t :: T) depth) :
    Continues ok sure r (fun toks => ∃ toks', toks = t :: toks' ∧ P toks') cs' T depth := by
  -- First the bracket, then what is inside and the bracket that closes it.
  refine (hr.opening hcs hc hdepth hnext).trans ?_
  rintro r₁ ⟨hr₁, hallowed⟩
  refine (hinside r₁ hr₁ hallowed).mono ?_
  rintro r' ⟨toks, htoks, hr'⟩
  refine ⟨t :: toks, ⟨toks, rfl, htoks⟩, ?_⟩
  rw [List.reverse_cons, List.append_assoc]
  exact hr'

mutual

/-- The reader goes on behind a value inside of brackets. -/
theorem tree : (t : Tree) → ∀ {r : TokenReader} {cs cs' : List Char} {T : List Token} {depth : Nat},
    t.Written cs cs' → r.Between ok sure cs T (depth + 1) → Followed cs' →
    Continues ok sure r (t.Tokens ok sure) cs' T (depth + 1)
  | .null, r, cs, cs', T, depth, hcs, hr, hcs' =>
    (hr.plain plainText_null hcs hcs').mono fun r' hr' => ⟨_, rfl, hr'.2⟩
  | .bool true, r, cs, cs', T, depth, hcs, hr, hcs' =>
    (hr.plain plainText_true hcs hcs').mono fun r' hr' => ⟨_, rfl, hr'.2⟩
  | .bool false, r, cs, cs', T, depth, hcs, hr, hcs' =>
    (hr.plain plainText_false hcs hcs').mono fun r' hr' => ⟨_, rfl, hr'.2⟩
  -- A numeral is a plain scalar, which is read as it stands.
  | .number n, r, cs, cs', T, depth, hwritten, hr, hcs' => by
    obtain ⟨ds, hcs, hds⟩ := hwritten
    refine (hr.plain (plainText_numeral hds) hcs hcs').mono ?_
    rintro r' ⟨hreadable, hr'⟩
    exact ⟨_, ⟨ds, hds, hreadable, rfl⟩, hr'⟩
  | .string s, r, cs, cs', T, depth, hwritten, hr, hcs' => by
    obtain ⟨cs₁, hcs, hquoted⟩ := hwritten
    refine (hr.quote hcs hquoted).mono ?_
    rintro r' ⟨t, text, x, ht, hread, hr', -⟩
    exact ⟨_, ⟨t, text, ht, hread, rfl⟩, hr'.followed hcs'⟩
  | .array is, r, cs, cs', T, depth, hwritten, hr, hcs' => by
    obtain ⟨cs₁, hcs, hitems⟩ := hwritten
    exact hr.bracketed hcs rfl (fun _ => rfl) (fun x s r hx => next_openBracket hx r s)
      fun r₁ hr₁ hallowed => items is hitems hr₁ fun _ => hallowed
  | .object ms, r, cs, cs', T, depth, hwritten, hr, hcs' => by
    obtain ⟨cs₁, hcs, hmembers⟩ := hwritten
    exact hr.bracketed hcs rfl (fun _ => rfl) (fun x s r hx => next_openBrace hx r s)
      fun r₁ hr₁ hallowed => members ms hmembers hr₁ fun _ => hallowed
  | .broken f g, r, cs, cs', T, depth, hwritten, hr, hcs' => hwritten.elim

/-- The reader goes on behind the closing bracket of a list. -/
theorem items : (is : Items) → ∀ {first : Bool} {r : TokenReader} {cs cs' : List Char}
    {T : List Token} {depth : Nat}, is.Written first cs cs' → r.Between ok sure cs T (depth + 1) →
    (first = true → r.keyAllowed = true) → Continues ok sure r (is.Tokens ok sure first) cs' T depth
  | .closed, first, r, cs, cs', T, depth, hcs, hr, _ =>
    (hr.closing hcs rfl (fun _ => rfl) fun x s r hx => next_closeBracket hx r s).mono
      fun r' hr' => ⟨_, rfl, hr'⟩
  | .broken f, first, r, cs, cs', T, depth, hwritten, hr, _ => hwritten.elim
  | .item t rest, first, r, cs, cs', T, depth, hwritten, hr, hallowed => by
    obtain ⟨cs₁, cs₂, hsep, ht, hrest⟩ := hwritten
    refine (hr.separator hsep hallowed).trans ?_
    rintro r₁ ⟨hr₁, -⟩
    -- An item is followed by a comma or a bracket, which ends a plain scalar.
    refine (tree t ht hr₁ (followed_items hrest)).trans ?_
    rintro r₂ ⟨ts₁, hts₁, hr₂⟩
    refine (items rest hrest hr₂ (by simp)).mono ?_
    rintro r' ⟨ts₂, hts₂, hr'⟩
    refine ⟨_, ⟨ts₁, ts₂, rfl, hts₁, hts₂⟩, ?_⟩
    simp only [List.reverse_append, List.append_assoc]
    exact hr'

/-- The reader goes on behind the closing brace of an object. -/
theorem members : (ms : Members) → ∀ {first : Bool} {r : TokenReader} {cs cs' : List Char}
    {T : List Token} {depth : Nat}, ms.Written first cs cs' → r.Between ok sure cs T (depth + 1) →
    (first = true → r.keyAllowed = true) → Continues ok sure r (ms.Tokens ok sure first) cs' T depth
  | .closed, first, r, cs, cs', T, depth, hcs, hr, _ =>
    (hr.closing hcs rfl (fun _ => rfl) fun x s r hx => next_closeBrace hx r s).mono
      fun r' hr' => ⟨_, rfl, hr'⟩
  | .broken f, first, r, cs, cs', T, depth, hwritten, hr, _ => hwritten.elim
  | .noKey t, first, r, cs, cs', T, depth, hwritten, hr, _ => hwritten.elim
  | .badKey f g, first, r, cs, cs', T, depth, hwritten, hr, _ => hwritten.elim
  | .member key t rest, first, r, cs, cs', T, depth, hwritten, hr, hallowed => by
    obtain ⟨cs₁, cs₂, cs₃, cs₄, cs₅, hsep, hquote, hkey, hcolon, ht, hrest⟩ := hwritten
    refine (hr.separator hsep hallowed).trans ?_
    rintro r₁ ⟨hr₁, hallowed₁⟩
    refine (hr₁.key hallowed₁ hquote hkey hcolon).trans ?_
    rintro r₂ ⟨k, text, hk, hread, keyed, hkeyed, hr₂⟩
    refine (tree t ht hr₂ (followed_members hrest)).trans ?_
    rintro r₃ ⟨ts₁, hts₁, hr₃⟩
    refine (members rest hrest hr₃ (by simp)).mono ?_
    rintro r' ⟨ts₂, hts₂, hr'⟩
    refine ⟨_, ⟨k, text, keyed, ts₁, ts₂, rfl, hkeyed, hk, hread, hts₁, hts₂⟩, ?_⟩
    -- The token in front of the key is among those of the member, if it was put in.
    cases keyed <;> simpa using hr'

end

end Between

end Yaml.TokenReader

/-! ### Whole documents -/

/-- Lists and objects. -/
def Json.Tree.Bracketed : Json.Tree → Prop
  | .array _ | .object _ => True
  | _ => False

namespace Yaml.TokenReader

/-- The reader goes on behind a whole document, if that is a list or an object. -/
theorem Between.root {r : TokenReader} {t : Json.Tree} {cs cs' : List Char} {sure : Prop}
    {ok : List Char → Bool} (ht : t.Bracketed) (hwritten : t.Written cs cs')
    (hr : r.Between ok sure cs [] 0) : Continues ok sure r (t.Tokens ok sure) cs' [] 0 := by
  cases t with
  -- A bracket at the root, and the items in it.
  | array is =>
    obtain ⟨cs₁, hcs, hitems⟩ := hwritten
    exact hr.bracketed hcs rfl (fun _ => rfl) (fun x s r hx => next_openBracket hx r s)
      fun r₁ hr₁ hallowed => hr₁.items is hitems fun _ => hallowed
  | object ms =>
    obtain ⟨cs₁, hcs, hmembers⟩ := hwritten
    exact hr.bracketed hcs rfl (fun _ => rfl) (fun x s r hx => next_openBrace hx r s)
      fun r₁ hr₁ hallowed => hr₁.members ms hmembers fun _ => hallowed
  | null | bool | number | string | broken => exact ht.elim

end Yaml.TokenReader

/-- **The tokens of a JSON document are those of its tree**, if it has YAML tokens at all, and it
has some if it is passable. The document is a list or an object. -/
theorem Yaml.Token.stream?_written {t : Json.Tree} {cs cs' : List Char} {sure : Prop}
    {ok : List Char → Bool} (ht : t.Bracketed) (hwritten : t.Written cs cs')
    (hend : dropSpace cs' = []) (hpassable : sure → Yaml.passable ok cs = true) :
    Yaml.Yields sure (Yaml.Token.stream? cs) (t.Tokens ok sure) := by
  have hpassable' (hsure : sure) : cs.all Yaml.isAllowed = true
      ∧ Yaml.Site.Legible ok ⟨0, .outside []⟩ cs := by
    have h := hpassable hsure
    rwa [Yaml.passable, Bool.and_eq_true] at h
  -- Characters that YAML does not know are refused before anything is read.
  have hinput : Yaml.Yields sure (Yaml.Input.ofChars? cs) (· = Yaml.Input.locate 0 0 0 cs) := by
    unfold Yaml.Input.ofChars?
    split
    · exact .some rfl
    · next hnot => exact .none fun hsure => hnot (hpassable' hsure).1
  refine hinput.bind ?_
  rintro s rfl
  let r₀ : Yaml.TokenReader := { input := Yaml.Input.locate 0 0 0 cs }
  -- At the start nothing has been read, and the whole document is before the reader.
  have hbetween : r₀.Between ok sure cs [] 0 := by
    refine { shows := ⟨cs, ⟨0, 0, 0, rfl⟩, rfl, fun hsure => (hpassable' hsure).2⟩,
             tokens := rfl, columns := rfl, depth := rfl, free := ?_ }
    simp [r₀]
  refine (hbetween.root ht hwritten).yields ?_
  rintro r' ⟨toks, htoks, hr'⟩ fuel
  refine (hr'.done hend fuel).mono id ?_
  rintro ts rfl
  simpa using htoks

end CompositeCrd
