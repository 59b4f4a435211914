import CompositeCrd.Proofs.Json.Grammar
import CompositeCrd.Proofs.Schema.Keywords
import CompositeCrd.Schema.Overlay
import CompositeCrd.Schema.Standard
import Mathlib.Logic.Relation

/-!
# Regular nodes

A node in memory can be of a form that no document has: a default that is present and `null`, or
another keyword under the name of a field. A node is `Regular` if nothing of this kind occurs
anywhere in it, the tables in it are sorted and the values that it embeds are canonical.

Everything that makes nodes keeps them regular: the reader (`Tree.readsRegular`, on any tree
whose numbers are proper), the constructors and `with` functions, the standard tables and the
overlay. `Reachable` collects these ways to make a node, and `Reachable.regular` is the
invariant of all of them. All but the reader go through `Regular.put`, since each of them
replaces one slot.
-/

namespace CompositeCrd.Schema

open Json

/-- The node `t` stands directly below `s`. -/
inductive Child (s t : Schema) : Prop
  | property {k : String} (h : (k, t) ∈ s.properties)
  | every (h : s.items = some (.every t))
  | positional {ts : List Schema} (h : s.items = some (.positional ts)) (h' : t ∈ ts)
  | matching (h : s.additionalProperties = some (.matching t))

/-- The node `t` stands in `s`, at any depth. -/
def Within (t s : Schema) : Prop :=
  Relation.ReflTransGen Child s t

/-- What holds of a regular node by itself. -/
structure Sound (s : Schema) : Prop where
  properties : Keyed.Sorted s.properties
  enum : ∀ v ∈ s.enumValues, v.Canonical
  default : ∀ v, s.default = some v → v ≠ .null ∧ v.Canonical
  extra : Keyed.Sorted s.extra
  unnamed : Unnamed s.extra
  values : ∀ e ∈ s.extra, e.2.Canonical

/-- A node that is sound, and so is every node below it. -/
inductive Regular : Schema → Prop
  | node {s : Schema} (sound : s.Sound) (below : ∀ t, Child s t → Regular t) : Regular s

variable {s t n : Schema} {kw : Keyword} {depth : Nat} {k : String} {m layer : PropertyTree}

/-- A regular node is sound at its own level. -/
theorem Regular.sound (h : Regular s) : s.Sound := by
  cases h with
  | node sound _ => exact sound

/-- What stands directly in a regular node is regular. -/
theorem Regular.child (h : Regular s) (ht : Child s t) : Regular t := by
  cases h with
  | node _ below => exact below t ht

/-- What stands anywhere in a regular node is regular. -/
theorem Regular.within (h : Regular s) (ht : Within t s) : Regular t := by
  induction ht with
  | refl => exact h
  | tail _ hchild ih => exact ih.child hchild

/-! ### Slots of regular nodes -/

/-- A table of regular nodes. -/
def RegularTable (m : PropertyTree) : Prop :=
  Keyed.Sorted m ∧ ∀ e ∈ m, Regular e.2

/-- What a regular node may hold for a keyword. -/
def RegularSlot : (kw : Keyword) → kw.Slot → Prop
  | .properties => RegularTable
  | .items => fun a : Option (ItemRule Schema) =>
    (∀ t, a = some (.every t) → Regular t)
      ∧ ∀ ts, a = some (.positional ts) → ∀ t ∈ ts, Regular t
  | .additionalProperties => fun a : Option (AdditionalRule Schema) =>
    ∀ t, a = some (.matching t) → Regular t
  | .enumValues => fun vs : List Value => ∀ v ∈ vs, v.Canonical
  | .default => fun a : Option Value => ∀ v, a = some v → v ≠ .null ∧ v.Canonical
  | _ => fun _ => True

/-- What a regular node may hold besides. -/
structure RegularExtra (extra : List (String × Value)) : Prop where
  sorted : Keyed.Sorted extra
  unnamed : Unnamed extra
  values : ∀ e ∈ extra, e.2.Canonical

/-- A node is regular when each of its slots is. -/
theorem regular_iff :
    Regular s ↔ (∀ kw, RegularSlot kw (s.get kw)) ∧ RegularExtra s.extra := by
  refine ⟨?_, ?_⟩
  · intro h
    have hs := h.sound
    -- Slots without nodes are regular by being sound, those with nodes by their children.
    refine ⟨fun kw => ?_, hs.extra, hs.unnamed, hs.values⟩
    cases kw with
    | properties => exact ⟨hs.properties, fun e he => h.child (.property (k := e.1) he)⟩
    | items =>
      exact ⟨fun t ht => h.child (.every ht), fun ts hts t ht => h.child (.positional hts ht)⟩
    | additionalProperties => exact fun t ht => h.child (.matching ht)
    | enumValues => exact hs.enum
    | default => exact hs.default
    | _ => exact trivial
  · rintro ⟨hslots, hextra⟩
    refine .node ⟨(hslots .properties).1, hslots .enumValues, hslots .default, hextra.sorted,
      hextra.unnamed, hextra.values⟩ fun t ht => ?_
    -- Conversely, each kind of child stands in one of the slots.
    cases ht with
    | property h => exact (hslots .properties).2 _ h
    | every h => exact (hslots .items).1 t h
    | positional h h' => exact (hslots .items).2 _ h t h'
    | matching h => exact hslots .additionalProperties t h

theorem Regular.slot (h : Regular s) (kw : Keyword) : RegularSlot kw (s.get kw) :=
  (regular_iff.mp h).1 kw

/-- **Replacing a slot by a regular one keeps a node regular.** -/
theorem Regular.put (h : Regular s) (kw : Keyword) {a : kw.Slot} (ha : RegularSlot kw a) :
    Regular (s.put kw a) := by
  obtain ⟨hslots, hextra⟩ := regular_iff.mp h
  refine regular_iff.mpr ⟨fun kw' => ?_, by rwa [extra_put]⟩
  -- The other slots and the other members are as before.
  by_cases hkw : kw' = kw
  · subst hkw
    rwa [get_put]
  · rw [get_put_of_ne hkw]
    exact hslots kw'

/-! ### Tables -/

theorem regularTable_nil : RegularTable [] :=
  ⟨Keyed.sorted_nil, fun _ h => absurd h List.not_mem_nil⟩

/-- A table stays regular when a regular node goes in. -/
theorem RegularTable.insert (hm : RegularTable m) (hs : Regular s) :
    RegularTable (Keyed.insert k s m) := by
  refine ⟨hm.1.insert, fun e he => ?_⟩
  rcases Keyed.mem_insert he with rfl | he
  · exact hs
  · exact hm.2 e he

/-- A table stays regular under a layer of regular nodes, in whatever order they stand. -/
theorem RegularTable.overlay (hm : RegularTable m) (hlayer : ∀ e ∈ layer, Regular e.2) :
    RegularTable (Keyed.overlay m layer) := by
  refine ⟨hm.1.overlay, fun e he => ?_⟩
  rcases Keyed.mem_overlay he with he | he
  · exact hlayer e he
  · exact hm.2 e he

theorem regularTable_ofList {entries : List (String × Schema)} (h : ∀ e ∈ entries, Regular e.2) :
    RegularTable (Keyed.ofList entries) :=
  regularTable_nil.overlay h

/-! ### Constructors -/

/-- The blank node is regular. -/
theorem regular_blank : Regular {} := by
  refine regular_iff.mpr ⟨fun kw => ?_, Keyed.sorted_nil, ?_, ?_⟩
  · -- Every slot is empty, and what is empty is regular.
    cases kw with
    | properties => exact regularTable_nil
    | items => exact ⟨by rintro t ⟨⟩, by rintro ts ⟨⟩⟩
    | additionalProperties => rintro t ⟨⟩
    | enumValues => exact fun v hv => absurd hv List.not_mem_nil
    | default => rintro v ⟨⟩
    | _ => exact trivial
  · intro k hk
    exact absurd hk List.not_mem_nil
  · intro e he
    exact absurd he List.not_mem_nil

theorem regular_typed (type : String) : Regular (typed type) :=
  regular_blank.put .type trivial

theorem regular_object : Regular object :=
  regular_typed "object"

theorem regular_string : Regular string :=
  regular_typed "string"

/-- The schema of lists of a regular item is regular. -/
theorem Regular.array (h : Regular s) : Regular (array s) := by
  refine (regular_typed "array").put .items (a := some (.every s)) ⟨?_, ?_⟩
  · rintro t ⟨⟩
    exact h
  · rintro ts ⟨⟩

theorem Regular.withProperty (h : Regular s) (ht : Regular t) (name : String) :
    Regular (s.withProperty name t) :=
  h.put .properties ((h.slot .properties).insert ht)

theorem Regular.withRequired (h : Regular s) (names : List String) :
    Regular (s.withRequired names) :=
  h.put .required trivial

theorem Regular.withFormat (h : Regular s) (format : String) : Regular (s.withFormat format) :=
  h.put .format trivial

theorem Regular.withDescription (h : Regular s) (description : String) :
    Regular (s.withDescription description) :=
  h.put .description trivial

/-- A regular schema for additional properties keeps a node regular. -/
theorem Regular.withAdditional (h : Regular s) (ht : Regular t) : Regular (s.withAdditional t) := by
  refine h.put .additionalProperties (a := some (.matching t)) ?_
  rintro t ⟨⟩
  exact ht

/-- An object of strings is regular. -/
theorem regular_strings (names : List String) : Regular (strings names) := by
  -- Each name adds a property to a regular node.
  have hfold : ∀ s, Regular s →
      Regular (names.foldl (fun node name => node.withProperty name string) s) := by
    induction names with
    | nil => exact fun s hs => hs
    | cons name names ih => exact fun s hs => ih _ (hs.withProperty regular_string name)
  exact hfold object regular_object

/-- Laying regular nodes over the properties of a property keeps a node regular. -/
theorem Regular.overlay (h : Regular s) (hlayer : ∀ e ∈ layer, Regular e.2) (under : String) :
    Regular (s.overlay layer under) := by
  let node := (Keyed.find? under s.properties).getD object
  -- The layer goes to the node under the property, or to a plain object.
  have hnode : Regular ((Keyed.find? under s.properties).getD object) := by
    cases hfind : Keyed.find? under s.properties with
    | none => exact regular_object
    | some t => exact h.child (.property (Keyed.mem_of_find? hfind))
  have hlaid : Regular { node with properties := Keyed.overlay node.properties layer } :=
    hnode.put .properties ((hnode.slot .properties).overlay hlayer)
  exact h.withProperty hlaid under

/-! ### Standard tables -/

theorem regular_dateTime : Regular dateTime :=
  regular_string.withFormat "date-time"

theorem regular_compositionRef : Regular Standard.compositionRef :=
  (regular_strings _).withRequired _

/-- The standard selector of compositions is regular. -/
theorem regular_compositionSelector : Regular Standard.compositionSelector := by
  have hlabels := regular_object.withAdditional regular_string
  exact (regular_object.withProperty hlabels "matchLabels").withRequired _

/-- The standard condition is regular. -/
theorem regular_condition : Regular Standard.condition :=
  (((((regular_object.withProperty regular_dateTime _).withProperty regular_string _).withProperty
    regular_string _).withProperty regular_string _).withProperty regular_string _).withRequired _

/-- The table of the envelope is regular. -/
theorem regularTable_base : RegularTable Standard.base := by
  refine regularTable_ofList ?_
  simp only [List.forall_mem_cons]
  exact ⟨regular_string, regular_string, regular_object, regular_object, regular_object, by simp⟩

/-- The standard properties of a composite resource are regular. -/
theorem regularTable_compositeSpec : RegularTable Standard.compositeSpec := by
  refine regularTable_ofList ?_
  simp only [List.forall_mem_cons]
  exact ⟨regular_compositionRef, regular_compositionSelector,
    (regular_strings _).withRequired _, ((regular_strings _).withRequired _).array,
    (regular_strings _).withRequired _, by simp⟩

/-- The standard properties of a claim are regular. -/
theorem regularTable_claimSpec : RegularTable Standard.claimSpec := by
  refine regularTable_ofList ?_
  simp only [List.forall_mem_cons]
  exact ⟨regular_compositionRef, regular_compositionSelector,
    (regular_strings _).withRequired _, (regular_strings _).withRequired _, by simp⟩

/-- The standard properties of a status are regular. -/
theorem regularTable_status : RegularTable Standard.status := by
  refine regularTable_ofList ?_
  simp only [List.forall_mem_cons]
  exact ⟨regular_condition.array.withDescription _,
    regular_object.withProperty regular_dateTime _, by simp⟩

/-! ### The reader -/

/-- What is not null is not read as null. -/
theorem value_ne_null {t : Tree} {v : Value} (ht : t ≠ .null) (h : t.value depth = .ok v) :
    v ≠ .null := by
  rintro rfl
  -- Only `null` is read as `null`.
  cases t with
  | null => exact ht rfl
  | number n => cases n <;> exact absurd h (by simp [Tree.value])
  | string s => cases s <;> exact absurd h (by simp [Tree.value])
  | array items => cases depth <;> exact absurd h (by simp [Tree.value, map_eq_ok])
  | object ms => cases depth <;> exact absurd h (by simp [Tree.value, map_eq_ok])
  | bool b => exact absurd h (by simp [Tree.value])
  | broken f g => exact absurd h (by simp [Tree.value])

/-- Reading a tree as a node, as a list of nodes or as a property tree gives regular nodes. -/
structure ReadsRegular (t : Tree) : Prop where
  node : ∀ ⦃depth n⦄, ofTree depth t = .ok n → Regular n
  list : ∀ ⦃depth ss⦄, listOfTree depth t = .ok ss → ∀ s ∈ ss, Regular s
  tree : ∀ ⦃depth m⦄, tableOfTree depth t = .ok m → RegularTable m

/-- The values of a proper list are canonical. -/
theorem list_value_canonical {t : Tree} {vs : List Value} (ht : t.Proper)
    (h : t.list depth Tree.value = .ok vs) : ∀ v ∈ vs, v.Canonical := by
  obtain ⟨items, depth, rfl, rfl, hvs⟩ := Tree.list_eq_ok_iff.mp h
  rw [decode_value_eq] at hvs
  exact Items.values_canonical ht hvs

/-- A value in one of two shapes is read in the first that fits. -/
theorem orNoAlternative_eq_ok {α β γ : Type} {x : Decoded α} {y : Decoded β} {f : α → γ} {g : β → γ}
    {c : γ} (h : orNoAlternative [x.map f, y.map g] = .ok c) :
    (∃ a, x = .ok a ∧ c = f a) ∨ ∃ b, y = .ok b ∧ c = g b := by
  cases x with
  | ok a => exact .inl ⟨a, rfl, (Except.ok.inj h).symm⟩
  | error e =>
    cases y with
    | ok b => exact .inr ⟨b, rfl, (Except.ok.inj h).symm⟩
    | error e' => exact absurd h (by simp [Except.map, orNoAlternative])

/-- The rule for items is read with regular nodes. -/
theorem ReadsRegular.itemRule {t : Tree} (h : ReadsRegular t) {rule : ItemRule Schema}
    (hrule : itemsOf depth t (readings t) = .ok rule) : RegularSlot .items (some rule) := by
  obtain ⟨-, -, hshape⟩ := bind_eq_ok.mp hrule
  obtain ⟨s, hs, rfl⟩ | ⟨ss, hss, rfl⟩ := orNoAlternative_eq_ok hshape
  · refine ⟨?_, by rintro ts ⟨⟩⟩
    rintro t ⟨⟩
    exact h.node hs
  · refine ⟨by rintro t ⟨⟩, ?_⟩
    rintro ts ⟨⟩
    exact h.list hss

/-- The rule for additional properties is read with a regular node, if any. -/
theorem ReadsRegular.additionalRule {t : Tree} (h : ReadsRegular t) {rule : AdditionalRule Schema}
    (hrule : additionalOf depth t (readings t) = .ok rule) :
    RegularSlot .additionalProperties (some rule) := by
  obtain ⟨-, -, hshape⟩ := bind_eq_ok.mp hrule
  obtain ⟨b, -, rfl⟩ | ⟨s, hs, rfl⟩ := orNoAlternative_eq_ok hshape
  · rintro t ⟨⟩
  · rintro t ⟨⟩
    exact h.node hs

/-- **A slot that is read is regular.** -/
theorem ReadsRegular.slot {t : Tree} (h : ReadsRegular t) (ht : t.Proper) {a : kw.Slot}
    (hread : kw.read depth t (readings t) = .ok a) : RegularSlot kw a := by
  -- What is null is read as the blank slot, which is regular; what is not is read by the decoder
  -- of the slot.
  cases kw with
  | properties =>
    obtain ⟨b, hb, rfl⟩ := map_eq_ok.mp hread
    rcases optional_eq_ok hb with rfl | ⟨-, m, hm, rfl⟩
    · exact regularTable_nil
    · exact h.tree hm
  | items =>
    rcases optional_eq_ok hread with rfl | ⟨-, rule, hrule, rfl⟩
    · exact ⟨by rintro t ⟨⟩, by rintro ts ⟨⟩⟩
    · exact h.itemRule hrule
  | additionalProperties =>
    rcases optional_eq_ok hread with rfl | ⟨-, rule, hrule, rfl⟩
    · rintro t ⟨⟩
    · exact h.additionalRule hrule
  | enumValues =>
    obtain ⟨b, hb, rfl⟩ := map_eq_ok.mp hread
    rcases optional_eq_ok hb with rfl | ⟨-, vs, hvs, rfl⟩
    · exact fun v hv => absurd hv List.not_mem_nil
    · exact list_value_canonical ht hvs
  | default =>
    rcases optional_eq_ok hread with rfl | ⟨hne, v, hv, rfl⟩
    · rintro v ⟨⟩
    · rintro _ ⟨⟩
      -- A `null` is read as no default, so a default that is there is not `null`.
      exact ⟨value_ne_null hne hv, Tree.value_canonical ht hv⟩
  | _ => exact trivial

/-- The entry of a table is regular: a null one is blank, and others are read as nodes. -/
theorem ReadsRegular.entry {t : Tree} (h : ReadsRegular t)
    (hread : readEntry depth t = .ok s) : Regular s := by
  by_cases ht : t = .null
  · subst ht
    exact Except.ok.inj hread ▸ regular_blank
  · rw [readEntry_of_ne ht] at hread
    exact h.node hread

/-- Putting a value under a key that is no keyword keeps a node regular. -/
theorem Regular.insert_extra {v : Value} (h : Regular s)
    (hk : Spelled.ofText? k = (none : Option Keyword)) (hv : v.Canonical) :
    Regular { s with extra := Keyed.insert k v s.extra } := by
  obtain ⟨hslots, hextra⟩ := regular_iff.mp h
  -- No slot changes; the new entry has a key that is no keyword, and a canonical value.
  refine regular_iff.mpr ⟨fun kw => ?_, hextra.sorted.insert, ?_, ?_⟩
  · rw [get_extra]
    exact hslots kw
  · intro k' hk'
    obtain ⟨e, he, rfl⟩ := List.mem_map.mp hk'
    rcases Keyed.mem_insert he with rfl | he
    · exact hk
    · exact hextra.unnamed e.1 (Keyed.mem_keys_of_mem he)
  · intro e he
    rcases Keyed.mem_insert he with rfl | he
    · exact hv
    · exact hextra.values e he

mutual

/-- **The reader gives regular nodes only**, whatever it reads and at whatever depth. -/
theorem Tree.readsRegular : ∀ {t : Tree}, t.Proper → ReadsRegular t
  | .object ms, ht => by
    refine ⟨fun depth n h => ?_, fun depth ss h => ?_, fun depth m h => ?_⟩
    · obtain ⟨_, depth, ⟨⟩, rfl, h⟩ := ofTree_eq_ok_iff.mp h
      exact (Members.readsRegular ht).1 regular_blank h
    · exact absurd h (by simp [listOfTree])
    · obtain ⟨_, depth, ⟨⟩, rfl, h⟩ := tableOfTree_eq_ok_iff.mp h
      exact (Members.readsRegular ht).2 regularTable_nil h
  | .array items, ht => by
    refine ⟨fun depth n h => ?_, fun depth ss h => ?_, fun depth m h => ?_⟩
    · exact absurd h (by simp [ofTree])
    · obtain ⟨_, depth, ⟨⟩, rfl, h⟩ := listOfTree_eq_ok_iff.mp h
      exact Items.readsRegular ht h
    · exact absurd h (by simp [tableOfTree])
  -- Nothing else is read as a node, a list of nodes or a table.
  | .null, _ | .bool _, _ | .number _, _ | .string _, _ | .broken _ _, _ => by
    refine ⟨fun depth n h => ?_, fun depth ss h => ?_, fun depth m h => ?_⟩
    · exact absurd h (by simp [ofTree])
    · exact absurd h (by simp [listOfTree])
    · exact absurd h (by simp [tableOfTree])

/-- Lists of nodes are read as regular ones. -/
theorem Items.readsRegular : ∀ {items : Items}, items.Proper → ∀ {depth : Nat} {ss : List Schema},
    listOfItems depth items = .ok ss → ∀ s ∈ ss, Regular s
  | .closed, _, depth, ss, h => by
    rw [listOfItems] at h
    obtain rfl := Except.ok.inj h
    exact fun s hs => absurd hs List.not_mem_nil
  | .broken f, _, depth, ss, h => by
    rw [listOfItems] at h
    exact absurd h (by simp)
  | .item t rest, ht, depth, ss, h => by
    -- Each item is read as a node of its own.
    obtain ⟨s, ss, rfl, hs, hss⟩ := listOfItems_item_eq_ok_iff.mp h
    exact List.forall_mem_cons.mpr
      ⟨(Tree.readsRegular ht.1).node hs, Items.readsRegular ht.2 hss⟩

/-- The members of an object fill a regular node, or a regular table, with what is regular. -/
theorem Members.readsRegular : ∀ {ms : Members}, ms.Proper →
    (∀ {depth : Nat} {s : Schema} {seen : List Keyword} {n : Schema}, Regular s →
      ofMembers depth s seen ms = .ok n → Regular n)
    ∧ ∀ {depth : Nat} {m m' : PropertyTree}, RegularTable m →
      tableOfMembers depth m ms = .ok m' → RegularTable m'
  | .closed, _ => by
    refine ⟨fun hs h => ?_, fun hm h => ?_⟩
    · rw [ofMembers] at h
      exact Except.ok.inj h ▸ hs
    · rw [tableOfMembers] at h
      exact Except.ok.inj h ▸ hm
  | .broken _, _ | .noKey _, _ | .badKey _ _, _ => by
    refine ⟨fun hs h => ?_, fun hm h => ?_⟩
    · exact absurd h (by simp [ofMembers])
    · exact absurd h (by simp [tableOfMembers])
  | .member key t rest, ht => by
    have htree := Tree.readsRegular ht.1
    refine ⟨fun {depth s seen n} hs h => ?_, fun {depth m m'} hm h => ?_⟩
    · -- A member goes to the unnamed keywords or into a slot, and both keep the node regular.
      obtain ⟨k, v, -, hk, hv, h⟩ | ⟨kw, a, -, ha, h⟩ := ofMembers_member_cases h
      · exact (Members.readsRegular ht.2).1 (hs.insert_extra hk (Tree.value_canonical ht.1 hv)) h
      · exact (Members.readsRegular ht.2).1 (hs.put kw (htree.slot ht.1 ha)) h
    · obtain ⟨k, s, -, hs, h⟩ := tableOfMembers_member_eq_ok_iff.mp h
      exact (Members.readsRegular ht.2).2 (hm.insert (htree.entry hs)) h

end

/-! ### Reachable nodes -/

/-- **A node that can arise**: it is read from a document or from a part of one, built by the
constructors and `with` functions, an entry of a standard table or of the properties of such a
node, or the result of an overlay. -/
inductive Reachable : Schema → Prop
  | decoded {s : List Symbol} {n : Schema} (h : codec.read (Document.ofSymbols s) = .ok n) :
    Reachable n
  | part {t : Tree} {depth : Nat} {n : Schema} (ht : t.Proper) (h : ofTree depth t = .ok n) :
    Reachable n
  | typed (type : String) : Reachable (typed type)
  | array {s : Schema} (h : Reachable s) : Reachable (array s)
  | withProperty {s t : Schema} (h : Reachable s) (ht : Reachable t) (name : String) :
    Reachable (s.withProperty name t)
  | withRequired {s : Schema} (h : Reachable s) (names : List String) :
    Reachable (s.withRequired names)
  | withFormat {s : Schema} (h : Reachable s) (format : String) : Reachable (s.withFormat format)
  | withDescription {s : Schema} (h : Reachable s) (description : String) :
    Reachable (s.withDescription description)
  | withAdditional {s t : Schema} (h : Reachable s) (ht : Reachable t) :
    Reachable (s.withAdditional t)
  | standard {table : PropertyTree} {e : String × Schema}
    (h : table ∈ [Standard.base, Standard.compositeSpec, Standard.claimSpec, Standard.status])
    (he : e ∈ table) : Reachable e.2
  | property {s : Schema} {e : String × Schema} (h : Reachable s) (he : e ∈ s.properties) :
    Reachable e.2
  | overlay {s : Schema} {layer : PropertyTree} (h : Reachable s)
    (hlayer : ∀ e ∈ layer, Reachable e.2) (under : String) : Reachable (s.overlay layer under)

/-- All standard tables are regular. -/
theorem regularTable_standard {table : PropertyTree}
    (h : table ∈ [Standard.base, Standard.compositeSpec, Standard.claimSpec, Standard.status]) :
    RegularTable table := by
  simp only [List.mem_cons, List.not_mem_nil, or_false] at h
  rcases h with rfl | rfl | rfl | rfl
  · exact regularTable_base
  · exact regularTable_compositeSpec
  · exact regularTable_claimSpec
  · exact regularTable_status

/-- **Every reachable node is regular.** -/
theorem Reachable.regular (h : Reachable s) : Regular s := by
  induction h with
  | @decoded s n h =>
    -- A document is read as a node only if nothing but white space is left.
    obtain ⟨n', hn, h⟩ := bind_eq_ok.mp h
    split at h
    · obtain rfl := Except.ok.inj h
      exact (Tree.readsRegular (ofSymbols_proper s)).node hn
    · exact absurd h (by simp)
  | part ht h => exact (Tree.readsRegular ht).node h
  | typed type => exact regular_typed type
  | array _ ih => exact ih.array
  | withProperty _ _ name ih iht => exact ih.withProperty iht name
  | withRequired _ names ih => exact ih.withRequired names
  | withFormat _ format ih => exact ih.withFormat format
  | withDescription _ description ih => exact ih.withDescription description
  | withAdditional _ _ ih iht => exact ih.withAdditional iht
  | standard h he => exact (regularTable_standard h).2 _ he
  | @property s e _ he ih => exact ih.child (.property (k := e.1) he)
  | overlay _ _ under ih ihlayer => exact ih.overlay ihlayer under

end CompositeCrd.Schema
