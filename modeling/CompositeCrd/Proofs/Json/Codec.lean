import CompositeCrd.DocumentFormat
import CompositeCrd.Proofs.Json.Pretty

/-!
# Lawful codecs

The two directions of a codec fit together when the text that is written for a value is read as
the value again. Not every codec of this library is so exact, and not on every value: a node comes
back as its echo, and a raw schema as the compact text of what it writes. So a law is stated along
a relation `R a b`, *the text that is written for `a` is read as `b`*:

* `Codec.Lawful c depth R`: whatever `c` reads is related to something, and whatever is related
  reads back in this sense, with room for `depth` nested lists and objects. The text of a value is
  read as the echo of the value, so this is what the reader is given,
* `Codec.Writes c n P`: exactly the values with `P` can be written within `n` levels.

Both laws go through optional values, lists and tables; for records see
`CompositeCrd.Proofs.Json.Record`.
-/

namespace CompositeCrd

open Json

variable {α β : Type} {depth n : Nat}

/-! ### Steps of the readers -/

namespace Json.Codec

variable {c : Codec α} {t : Tree}

theorem list_decode_eq_ok_iff {as : List α} : (list c).decode depth t = .ok as ↔
    ∃ items d, t = .array items ∧ depth = d + 1 ∧ items.decode (c.decode d) = .ok as :=
  Tree.list_eq_ok_iff

/-- A map is decoded from an object, one level deeper, the last member counting for each key. -/
theorem map_decode_eq_ok_iff {m : SortedMap α} : (map c).decode depth t = .ok m ↔
    ∃ ms d es, t = .object ms ∧ depth = d + 1 ∧ ms.decode (c.decode d) = .ok es
      ∧ m = es.foldl (fun m e => m.insert e.1 e.2) SortedMap.empty := by
  simp only [map, bind_eq_ok, Tree.members_eq_ok_iff, pure, Except.pure, Except.ok.injEq]
  refine ⟨?_, ?_⟩
  · rintro ⟨es, ⟨ms, d, rfl, rfl, hes⟩, rfl⟩
    exact ⟨ms, d, es, rfl, rfl, hes, rfl⟩
  · rintro ⟨ms, d, es, rfl, rfl, hes, rfl⟩
    exact ⟨es, ⟨ms, d, rfl, rfl, hes⟩, rfl⟩

end Json.Codec

/-! ### Laws of codecs -/

namespace Json.Codec

/-- **What `c` reads and writes fits together along `R`.** -/
structure Lawful (c : Codec α) (depth : Nat) (R : α → α → Prop) : Prop where
  /-- What has been read is related to something. -/
  settled : ∀ ⦃t a⦄, t.Proper → c.decode depth t = .ok a → ∃ b, R a b
  /-- The text of what is written for a value is read as what the value is related to. -/
  reads : ∀ ⦃a b v⦄, R a b → c.encode a = some v → v.nesting ≤ depth →
    v.Proper ∧ c.decode depth v.echo.tree = .ok b

/-- **The values that `c` writes within `n` levels** are those with `P`. -/
def Writes (c : Codec α) (n : Nat) (P : α → Prop) : Prop :=
  ∀ a, (∃ v, c.encode a = some v ∧ v.nesting ≤ n) ↔ P a

/-- What is written is never `null`, so it is not mistaken for an absent value. -/
def NeverNull (c : Codec α) : Prop :=
  ∀ ⦃a v⦄, c.encode a = some v → v ≠ .null

variable {c : Codec α} {R R' : α → α → Prop} {P P' : α → Prop}

/-- A law may be stated with an equivalent relation. -/
theorem Lawful.congr (h : c.Lawful depth R) (hR : ∀ a b, R a b ↔ R' a b) : c.Lawful depth R' := by
  have heq : R = R' := by
    funext a b
    exact propext (hR a b)
  exact heq ▸ h

/-- What is written may be told by an equivalent condition. -/
theorem Writes.congr (h : c.Writes n P) (hP : ∀ a, P a ↔ P' a) : c.Writes n P' :=
  fun a => (h a).trans (hP a)

/-- A codec that reads back exactly what it writes. -/
theorem Lawful.of_eq (h : ∀ a v, c.encode a = some v → v.nesting ≤ depth →
    v.Proper ∧ c.decode depth v.echo.tree = .ok a) : c.Lawful depth (· = ·) where
  settled _ a _ _ := ⟨a, rfl⟩
  reads := by
    rintro a _ v rfl hv hdepth
    exact h a v hv hdepth

/-! ### Whole documents -/

theorem Lawful.settled_of_read (h : c.Lawful maxDepth R) {s : List Symbol} {a : α}
    (ha : c.read (.ofSymbols s) = .ok a) : ∃ b, R a b :=
  h.settled (ofSymbols_proper s) (decode_eq_ok_iff.mp ha).1

/-- **What is written reads back, in either layout.** -/
theorem Lawful.read_texts (h : c.Lawful maxDepth R) {a b : α} {v : Value} (hab : R a b)
    (hv : c.encode a = some v) (hdepth : v.nesting ≤ maxDepth) :
    c.read (.ofText v.compact) = .ok b ∧ c.read (.ofText (v.pretty ++ "\n")) = .ok b := by
  obtain ⟨hproper, hread⟩ := h.reads hab hv hdepth
  rw [ofText_compact hproper, ofText_pretty hproper, Codec.read, decode_document]
  exact ⟨hread, hread⟩

/-! ### Scalars -/

/-- Texts come back as they are. -/
theorem text_lawful : text.Lawful depth (· = ·) := by
  refine .of_eq ?_
  rintro s _ ⟨⟩ -
  rw [Value.echo_string]
  exact ⟨.string s, rfl⟩

/-- Flags come back as they are. -/
theorem flag_lawful : flag.Lawful depth (· = ·) := by
  refine .of_eq ?_
  rintro b _ ⟨⟩ -
  rw [Value.echo_bool]
  exact ⟨.bool b, rfl⟩

/-- Integers of 32 bits come back as they are. -/
theorem int32_lawful : int32.Lawful depth (· = ·) := by
  refine .of_eq ?_
  rintro k _ ⟨⟩ -
  -- An integer of 32 bits is one of 64, and in its own range.
  have hlow := Int32.le_toInt k
  have hhigh := Int32.toInt_lt k
  have hproper : Number.Proper (.int k.toInt) := by
    change (decide _ && decide _) = true
    rw [Bool.and_eq_true, decide_eq_true_eq, decide_eq_true_eq]
    omega
  have hrange : -2147483648 ≤ k.toInt ∧ k.toInt ≤ 2147483647 := by omega
  have hfits : int32? k.toInt = some k := by
    rw [int32?, Int32.ofInt_toInt]
    exact if_pos hrange
  refine ⟨.number hproper, ?_⟩
  rw [Value.echo_number, Number.echo]
  change Tree.int32 (.number (some (.int k.toInt))) = _
  rw [Tree.int32, hfits]

/-- Choices come back as they are if each is found by its own spelling. -/
theorem spelled_lawful [Spelled α] (h : ∀ a : α, Spelled.ofText? (Spelled.spell a) = some a) :
    (spelled : Codec α).Lawful depth (· = ·) := by
  refine .of_eq ?_
  rintro a _ ⟨⟩ -
  refine ⟨.string _, ?_⟩
  rw [Value.echo_string]
  change Json.variant (Spelled.spell a) = _
  rw [Json.variant, h]

theorem text_neverNull : text.NeverNull := by
  rintro s _ ⟨⟩ ⟨⟩

theorem flag_neverNull : flag.NeverNull := by
  rintro b _ ⟨⟩ ⟨⟩

theorem int32_neverNull : int32.NeverNull := by
  rintro k _ ⟨⟩ ⟨⟩

theorem text_writes : text.Writes n fun _ => True :=
  fun s => iff_of_true ⟨.string s, rfl, Nat.zero_le n⟩ trivial

theorem flag_writes : flag.Writes n fun _ => True :=
  fun b => iff_of_true ⟨.bool b, rfl, Nat.zero_le n⟩ trivial

theorem int32_writes : int32.Writes n fun _ => True :=
  fun k => iff_of_true ⟨.number (.int k.toInt), rfl, Nat.zero_le n⟩ trivial

theorem spelled_writes [Spelled α] : (spelled : Codec α).Writes n fun _ => True :=
  fun a => iff_of_true ⟨.string (Spelled.spell a), rfl, Nat.zero_le n⟩ trivial

/-! ### Optional values -/

/-- An optional value comes back if the value does, since null stands for nothing else. -/
theorem nullable_lawful (h : c.Lawful depth R) (hnull : c.NeverNull) :
    (nullable c).Lawful depth (Option.Rel R) where
  settled := by
    intro t a ht ha
    -- What is decoded is nothing, or was decoded from what is not null.
    rcases optional_eq_ok ha with rfl | ⟨-, b, hb, rfl⟩
    · exact ⟨none, .none⟩
    · obtain ⟨b', hb'⟩ := h.settled ht hb
      exact ⟨some b', .some hb'⟩
  reads := by
    intro a b v hab hv hdepth
    cases hab with
    | none =>
      obtain rfl := Option.some.inj hv
      rw [Value.echo_null]
      exact ⟨.null, rfl⟩
    | some hab =>
      obtain ⟨hproper, hread⟩ := h.reads hab hv hdepth
      refine ⟨hproper, ?_⟩
      -- The value is not written as null, so it is not taken for nothing.
      change v.echo.tree.optional (c.decode depth) = _
      rw [optional_of_ne _ (mt Value.echo_eq_null_iff.mp (hnull hv)), hread]
      rfl

/-- An optional value can be written if the value can, when there is one. -/
theorem nullable_writes (h : c.Writes n P) :
    (nullable c).Writes n fun a => ∀ b, a = some b → P b := by
  intro a
  cases a with
  | none => exact iff_of_true ⟨.null, rfl, Nat.zero_le n⟩ (by rintro b ⟨⟩)
  | some a =>
    refine (h a).trans ⟨?_, fun ha => ha a rfl⟩
    rintro ha _ ⟨⟩
    exact ha

/-- Optional values that are related by equality are equal. -/
theorem optionRel_eq_iff {a b : Option α} : Option.Rel (· = ·) a b ↔ a = b := by
  refine ⟨?_, ?_⟩
  · rintro (rfl | _)
    · rfl
    · rfl
  · rintro rfl
    cases a with
    | none => exact .none
    | some a => exact .some rfl

/-- Optional values that come back as the images of values with a property. -/
theorem optionRel_and_map_iff {f : α → α} {a b : Option α} :
    Option.Rel (fun a b => P a ∧ f a = b) a b ↔ (∀ x, a = some x → P x) ∧ a.map f = b := by
  refine ⟨?_, ?_⟩
  · rintro (⟨hP, rfl⟩ | _)
    · refine ⟨?_, rfl⟩
      rintro _ ⟨⟩
      exact hP
    · exact ⟨by rintro _ ⟨⟩, rfl⟩
  · rintro ⟨hP, rfl⟩
    cases a with
    | none => exact .none
    | some x => exact .some ⟨hP x rfl, rfl⟩

/-! ### Lists -/

/-- Lists whose items come back as the images of items with a property. -/
theorem forall₂_and_map_iff {f : α → α} {as bs : List α} :
    List.Forall₂ (fun a b => P a ∧ f a = b) as bs ↔ (∀ a ∈ as, P a) ∧ as.map f = bs := by
  rw [List.forall₂_and_left, ← List.forall₂_eq_eq_eq, List.forall₂_map_left_iff]

/-- The items of a list are read from trees one by one. -/
theorem exists_tree_of_mem {f : Tree → Decoded α} :
    ∀ {items : Items} {as : List α}, items.Proper → items.decode f = .ok as →
      ∀ a ∈ as, ∃ t : Tree, t.Proper ∧ f t = .ok a
  | .closed, as, _, h => by
    obtain rfl := Except.ok.inj h
    exact fun a ha => absurd ha List.not_mem_nil
  | .broken _, as, _, h => absurd h (by simp [Items.decode])
  | .item t rest, as, ht, h => by
    obtain ⟨a, as, rfl, ha, has⟩ := Items.decode_item_eq_ok_iff.mp h
    exact List.forall_mem_cons.mpr ⟨⟨t, ht.1, ha⟩, exists_tree_of_mem ht.2 has⟩

/-- The written items of a list, and what is read from them. -/
theorem Lawful.items (h : c.Lawful depth R) {as bs : List α} {vs : List Value}
    (hR : List.Forall₂ R as bs) (hvs : as.mapM c.encode = some vs)
    (hdepth : nestingItems vs ≤ depth) :
    (∀ v ∈ vs, v.Proper)
      ∧ (itemsTree (vs.map Value.echo)).decode (c.decode depth) = .ok bs := by
  rw [mapM_eq_some_iff] at hvs
  -- The written items and those that are read go along with the items of the list.
  induction hR generalizing vs with
  | nil =>
    cases hvs with
    | nil => exact ⟨by simp, rfl⟩
  | cons hab _ ih =>
    cases hvs with
    | @cons _ v _ vs hv hvs =>
      obtain ⟨hproper, hread⟩ := h.reads hab hv ((Nat.le_max_left _ _).trans hdepth)
      obtain ⟨hpropers, hreads⟩ := ih hvs ((Nat.le_max_right _ _).trans hdepth)
      refine ⟨List.forall_mem_cons.mpr ⟨hproper, hpropers⟩, ?_⟩
      rw [List.map_cons, itemsTree, Items.decode, hread, hreads]
      rfl

/-- A list comes back item by item, and its items are one level deeper. -/
theorem list_lawful (h : ∀ d, depth = d + 1 → c.Lawful d R) :
    (list c).Lawful depth (List.Forall₂ R) where
  settled := by
    intro t as ht has
    obtain ⟨items, d, rfl, rfl, has⟩ := list_decode_eq_ok_iff.mp has
    -- Each item has been read from a tree, and is settled for that.
    refine exists_forall₂_iff.mpr fun a ha => ?_
    obtain ⟨t, ht, hread⟩ := exists_tree_of_mem ht has a ha
    exact (h d rfl).settled ht hread
  reads := by
    intro as bs v hR hv hdepth
    obtain ⟨vs, hvs, rfl⟩ := Option.map_eq_some_iff.mp hv
    obtain ⟨d, rfl, hle⟩ := depth_of_array hdepth
    obtain ⟨hproper, hread⟩ := (h d rfl).items hR hvs hle
    rw [Value.echo_array]
    exact ⟨.array hproper, hread⟩

/-- A list comes back at the level above its items. -/
theorem list_lawful_succ (h : c.Lawful depth R) :
    (list c).Lawful (depth + 1) (List.Forall₂ R) := by
  refine list_lawful fun d hd => ?_
  obtain rfl := Nat.succ.inj hd
  exact h

/-- A list can be written if all of its items can, one level deeper. -/
theorem list_writes (h : c.Writes n P) : (list c).Writes (n + 1) fun as => ∀ a ∈ as, P a := by
  intro as
  -- The list can be written when each of its items can.
  refine Iff.trans ?_ (exists_mapM_iff.trans (forall₂_congr fun a _ => h a))
  refine ⟨?_, ?_⟩
  · rintro ⟨v, hv, hle⟩
    obtain ⟨vs, hvs, rfl⟩ := Option.map_eq_some_iff.mp hv
    exact ⟨vs, hvs, nestingItems_le_iff.mp (Nat.le_of_succ_le_succ hle)⟩
  · rintro ⟨vs, hvs, hle⟩
    refine ⟨.array vs, Option.map_eq_some_iff.mpr ⟨vs, hvs, rfl⟩, ?_⟩
    exact Nat.succ_le_succ (nestingItems_le_iff.mpr hle)

/-! ### Tables -/

/-- Entries are put into a table one by one, as a layer over it. -/
theorem entries_foldl_insert {entries : List (String × α)} {m : SortedMap α} :
    (entries.foldl (fun m e => m.insert e.1 e.2) m).entries = Keyed.overlay m.entries entries := by
  induction entries generalizing m with
  | nil => rfl
  | cons e entries ih => rw [List.foldl_cons, ih, Keyed.overlay_cons, SortedMap.insert]

/-- The written members of a table, and what is read from them. -/
theorem Lawful.members (h : c.Lawful depth (· = ·)) {entries : Keyed α}
    {ms : List (String × Value)}
    (hms : entries.mapM (fun e => (c.encode e.2).map fun v => (e.1, v)) = some ms)
    (hdepth : nestingMembers ms ≤ depth) :
    (∀ m ∈ ms, m.2.Proper)
      ∧ (membersTree (ms.map fun m => (m.1, m.2.echo))).decode (c.decode depth)
        = .ok entries := by
  rw [mapM_eq_some_iff] at hms
  induction hms with
  | nil => exact ⟨by simp, rfl⟩
  | @cons e m entries ms hm _ ih =>
    obtain ⟨v, hv, rfl⟩ := Option.map_eq_some_iff.mp hm
    obtain ⟨hproper, hread⟩ := h.reads rfl hv ((Nat.le_max_left _ _).trans hdepth)
    obtain ⟨hpropers, hreads⟩ := ih ((Nat.le_max_right _ _).trans hdepth)
    refine ⟨List.forall_mem_cons.mpr ⟨hproper, hpropers⟩, ?_⟩
    rw [List.map_cons, membersTree, Members.decode, keyText, ok_bind, hread, ok_bind, hreads]
    rfl

/-- A map comes back entry by entry, in the order of its keys. -/
theorem map_lawful (h : ∀ d, depth = d + 1 → c.Lawful d (· = ·)) :
    (map c).Lawful depth (· = ·) := by
  refine .of_eq ?_
  intro m v hv hdepth
  obtain ⟨ms, hms, rfl⟩ := Option.map_eq_some_iff.mp hv
  obtain ⟨d, rfl, hle⟩ := depth_of_object hdepth
  obtain ⟨hproper, hread⟩ := (h d rfl).members hms hle
  rw [Value.echo_object]
  refine ⟨.object hproper, map_decode_eq_ok_iff.mpr ⟨_, d, _, rfl, rfl, hread, ?_⟩⟩
  -- The entries of a table that is sorted already make that table again.
  have hentries : (m.entries.foldl (fun m e => m.insert e.1 e.2) SortedMap.empty).entries
      = m.entries := by
    rw [entries_foldl_insert]
    exact m.sorted.overlay_nil
  exact SortedMap.ext hentries.symm

/-- A map can be written if all of its values can, one level deeper. -/
theorem map_writes (h : c.Writes n P) :
    (map c).Writes (n + 1) fun m => ∀ e ∈ m.entries, P e.2 := by
  intro m
  -- A member nests as deep as its value.
  have hentry : ∀ e : String × α,
      (∃ m, (c.encode e.2).map (fun v => (e.1, v)) = some m ∧ m.2.nesting ≤ n) ↔ P e.2 := by
    intro e
    rw [← h e.2]
    refine ⟨?_, ?_⟩
    · rintro ⟨m, hm, hle⟩
      obtain ⟨v, hv, rfl⟩ := Option.map_eq_some_iff.mp hm
      exact ⟨v, hv, hle⟩
    · rintro ⟨v, hv, hle⟩
      exact ⟨(e.1, v), Option.map_eq_some_iff.mpr ⟨v, hv, rfl⟩, hle⟩
  refine Iff.trans ?_ (exists_mapM_iff.trans (forall₂_congr fun e _ => hentry e))
  refine ⟨?_, ?_⟩
  · rintro ⟨v, hv, hle⟩
    obtain ⟨ms, hms, rfl⟩ := Option.map_eq_some_iff.mp hv
    exact ⟨ms, hms, nestingMembers_le_iff.mp (Nat.le_of_succ_le_succ hle)⟩
  · rintro ⟨ms, hms, hle⟩
    refine ⟨.object ms, Option.map_eq_some_iff.mpr ⟨ms, hms, rfl⟩, ?_⟩
    exact Nat.succ_le_succ (nestingMembers_le_iff.mpr hle)

end Json.Codec

end CompositeCrd
