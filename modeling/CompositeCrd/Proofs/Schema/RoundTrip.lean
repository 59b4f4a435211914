import CompositeCrd.Proofs.Json.Distinct
import CompositeCrd.Proofs.Schema.Echo

/-!
# Nodes read back

A regular node is read from what it is written as. The slots are compared one by one
(`read_write`), and what stands below a node reads back by induction on the regular node
(`Regular.readsBack`).

The compact text of a regular node is read as its echo (`Regular.read_compact`), which is the node
itself if the numbers in it come back from their texts (`Regular.echo_eq`). No two regular nodes
have one text, whatever becomes of their numbers (`Regular.compact_inj`).
-/

namespace CompositeCrd.Schema

open Json

variable {s t : Schema} {kw : Keyword} {depth : Nat} {v : Value}

/-! ### Written values -/

/-- A schema is written as an object. -/
theorem toValue_ne_null (s : Schema) : s.toValue ≠ .null := by
  rw [toValue_eq]
  simp

/-- A list of texts is read back. -/
theorem decode_texts (names : List String) :
    (itemsTree (names.map .string)).decode Tree.text = .ok names := by
  induction names with
  | nil => rfl
  | cons name names ih =>
    rw [List.map_cons, itemsTree, Items.decode, ih]
    rfl

theorem map_sorted_of_canonical {vs : List Value} (h : ∀ v ∈ vs, v.Canonical) :
    vs.map Value.sorted = vs :=
  (List.map_congr_left fun v hv => (h v hv).sorted_eq).trans (List.map_id' vs)

/-- The node is read from what it is written as. -/
def ReadsBack (s : Schema) : Prop :=
  ∀ ⦃depth⦄, s.toValue.nesting ≤ depth → ofTree depth s.toValue.tree = .ok s

/-- A rule for items that is written is one schema or several. -/
theorem itemsValue_eq_some {a : Option (ItemRule Schema)} (hv : itemsValue a = some v) :
    (∃ t, a = some (.every t) ∧ v = t.toValue)
      ∨ ∃ ts, a = some (.positional ts) ∧ v = .array (listValues ts) := by
  rcases a with _ | t | ts
  · exact absurd hv (by simp [itemsValue])
  · exact .inl ⟨t, rfl, (Option.some.inj hv).symm⟩
  · exact .inr ⟨ts, rfl, (Option.some.inj hv).symm⟩

/-- A rule for further properties that is written is a truth value or a schema. -/
theorem additionalValue_eq_some {a : Option (AdditionalRule Schema)}
    (hv : additionalValue a = some v) :
    (∃ b, a = some (.allowed b) ∧ v = .bool b) ∨ ∃ t, a = some (.matching t) ∧ v = t.toValue := by
  rcases a with _ | b | t
  · exact absurd hv (by simp [additionalValue])
  · exact .inl ⟨b, rfl, (Option.some.inj hv).symm⟩
  · exact .inr ⟨t, rfl, (Option.some.inj hv).symm⟩

/-- A list that is written is written item by item. -/
theorem unlessEmpty_eq_some {items : List Value} (h : unlessEmpty items = some v) :
    v = .array items := by
  unfold unlessEmpty at h
  split at h
  · exact absurd h (by simp)
  · exact (Option.some.inj h).symm

/-- The flag is written when it is set. -/
theorem nullable_eq_some (hv : Keyword.nullable.write s.nullable = some v) :
    s.nullable = true ∧ v = .bool true := by
  cases hb : s.nullable with
  | false =>
    rw [hb] at hv
    exact absurd hv (by simp [Keyword.write])
  | true =>
    rw [hb] at hv
    exact ⟨rfl, (Option.some.inj hv).symm⟩

/-- Properties are written as a table. -/
theorem eq_object_of_propertiesValue (hv : propertiesValue s.properties = some v) :
    v = .object (tableMembers s.properties) := by
  cases hprops : s.properties with
  | nil =>
    rw [hprops] at hv
    exact absurd hv (by simp [propertiesValue])
  | cons e es =>
    rw [hprops] at hv
    exact (Option.some.inj hv).symm

/-- The table of properties is read back, as its entries are. -/
theorem read_write_properties (hs : Keyed.Sorted s.properties)
    (hbelow : ∀ t, Child s t → t.ReadsBack)
    (hv : propertiesValue s.properties = some v) (hdepth : v.nesting ≤ depth) :
    Keyword.properties.read depth v.tree (readings v.tree) = .ok s.properties := by
  obtain rfl := eq_object_of_propertiesValue hv
  obtain ⟨depth, rfl, hle⟩ := depth_of_object hdepth
  -- Every entry reads back, and the table is sorted already.
  have hentries : List.Forall₂ (fun (e : String × Value) (e' : String × Schema) =>
      e'.1 = e.1 ∧ readEntry depth e.2.tree = .ok e'.2)
      (tableMembers s.properties) s.properties := by
    rw [tableMembers_eq, List.forall₂_map_left_iff, List.forall₂_same]
    intro e he
    have hmem : (e.1, e.2.toValue) ∈ tableMembers s.properties := by
      rw [tableMembers_eq]
      exact List.mem_map_of_mem he
    refine ⟨rfl, ?_⟩
    rw [readEntry_of_ne (by simp [toValue_eq, Value.tree])]
    exact hbelow e.2 (.property (k := e.1) he) ((nesting_le_members hmem).trans hle)
  have hread : tableOfTree (depth + 1) (Value.object (tableMembers s.properties)).tree
      = .ok s.properties :=
    tableOfMembers_eq_ok_iff.mpr ⟨s.properties, hentries, hs.overlay_nil.symm⟩
  rw [Keyword.read, optional_of_ne _ (by simp)]
  change (((tableOfTree (depth + 1) _).map some).map _) = _
  rw [hread]
  rfl

/-- A rule for items is read back. -/
theorem read_write_items (hbelow : ∀ t, Child s t → t.ReadsBack)
    (hv : itemsValue s.items = some v) (hdepth : v.nesting ≤ depth) :
    Keyword.items.read depth v.tree (readings v.tree) = .ok s.items := by
  rcases itemsValue_eq_some hv with ⟨t, hitems, rfl⟩ | ⟨ts, hitems, rfl⟩
  · have hread : ofTree depth t.toValue.tree = .ok t := hbelow t (.every hitems) hdepth
    rw [Keyword.read, optional_of_ne _ t.toValue_ne_null, itemsOf, value_tree hdepth, ok_bind]
    change (orNoAlternative [(ofTree depth t.toValue.tree).map ItemRule.every, _]).map some = _
    rw [hread, hitems]
    rfl
  · have hread : listOfTree depth (Value.array (listValues ts)).tree = .ok ts := by
      obtain ⟨depth, rfl, hle⟩ := depth_of_array hdepth
      refine listOfItems_eq_ok_iff.mpr ?_
      rw [listValues_eq, List.forall₂_map_left_iff, List.forall₂_same]
      intro t ht
      have hmem : t.toValue ∈ listValues ts := by
        rw [listValues_eq]
        exact List.mem_map_of_mem ht
      exact hbelow t (.positional hitems ht) ((nesting_le_items hmem).trans hle)
    rw [Keyword.read, optional_of_ne _ (by simp), itemsOf, value_tree hdepth, ok_bind]
    -- A list is no node, so the second shape is taken.
    change (orNoAlternative [.error _, (listOfTree depth _).map ItemRule.positional]).map some = _
    rw [hread, hitems]
    rfl

/-- A rule for further properties is read back. -/
theorem read_write_additional (hbelow : ∀ t, Child s t → t.ReadsBack)
    (hv : additionalValue s.additionalProperties = some v)
    (hdepth : v.nesting ≤ depth) :
    Keyword.additionalProperties.read depth v.tree (readings v.tree)
      = .ok s.additionalProperties := by
  rcases additionalValue_eq_some hv with ⟨b, hrule, rfl⟩ | ⟨t, hrule, rfl⟩
  · rw [hrule]
    rfl
  · have hread : ofTree depth t.toValue.tree = .ok t := hbelow t (.matching hrule) hdepth
    have hflag : ∃ e, t.toValue.tree.flag = .error e := by
      rw [toValue_eq]
      exact ⟨_, rfl⟩
    obtain ⟨e, he⟩ := hflag
    rw [Keyword.read, optional_of_ne _ t.toValue_ne_null, additionalOf, value_tree hdepth, ok_bind,
      he]
    -- A node is no truth value, so the second shape is taken.
    change (orNoAlternative
      [.error e, (ofTree depth t.toValue.tree).map AdditionalRule.matching]).map some = _
    rw [hread, hrule]
    rfl

/-- **A slot is read from what it is written as**, if the nodes in it are. -/
theorem read_write (hs : s.Sound) (hbelow : ∀ t, Child s t → t.ReadsBack)
    (hv : kw.write (s.get kw) = some v) (hdepth : v.nesting ≤ depth) :
    kw.read depth v.tree (readings v.tree) = .ok (s.get kw) := by
  -- One case for each kind of slot.
  cases kw with
  | type | description | format | preserveUnknownFields =>
    obtain ⟨a, ha, rfl⟩ := Option.map_eq_some_iff.mp hv
    rw [ha]
    rfl
  | properties => exact read_write_properties hs.properties hbelow hv hdepth
  -- A list of names.
  | required =>
    obtain rfl : v = .array (s.required.map .string) := unlessEmpty_eq_some hv
    obtain ⟨depth, rfl, -⟩ := depth_of_array hdepth
    rw [Keyword.read, optional_of_ne _ (by simp)]
    change (((itemsTree (s.required.map .string)).decode Tree.text).map some).map _ = _
    rw [decode_texts]
    rfl
  | items => exact read_write_items hbelow hv hdepth
  | additionalProperties => exact read_write_additional hbelow hv hdepth
  | enumValues =>
    obtain rfl : v = .array s.enumValues := unlessEmpty_eq_some hv
    obtain ⟨depth, rfl, hle⟩ := depth_of_array hdepth
    rw [Keyword.read, optional_of_ne _ (by simp)]
    change (((itemsTree s.enumValues).decode (Tree.value depth)).map some).map _ = _
    rw [decode_values hle, map_sorted_of_canonical hs.enum]
    rfl
  | default =>
    -- A default that is `null` would be read as none.
    obtain ⟨hne, hcanonical⟩ := hs.default v hv
    have hdefault : s.default = some v := hv
    rw [Keyword.read, optional_of_ne _ hne, value_tree hdepth, hcanonical.sorted_eq]
    exact congrArg Except.ok hdefault.symm
  | nullable =>
    obtain ⟨hnullable, rfl⟩ := nullable_eq_some hv
    exact congrArg Except.ok hnullable.symm

/-! ### Whole nodes -/

/-- **A regular node is read from what it is written as.** -/
theorem Regular.readsBack (h : Regular s) : s.ReadsBack := by
  -- The induction is on the schema: those below it are read back.
  induction h with
  | @node s hs _ ih =>
    intro depth hdepth
    rw [toValue_eq] at hdepth ⊢
    obtain ⟨depth, rfl, hmembers⟩ := depth_of_object hdepth
    change ofMembers depth {} [] (membersTree (s.slotMembers ++ s.extra)) = .ok s
    refine (ofMembers_eq_ok_iff hmembers).mpr ⟨by simp, ?_, fun kw => ?_, ?_⟩
    · exact nodup_named (nodup_keys_members hs.unnamed hs.extra.nodup)
    · -- The slot of a keyword is written, or it is blank and left out.
      rw [find?_spell_members hs.unnamed]
      cases hv : kw.write (s.get kw) with
      | none => exact get_of_write_eq_none hv
      | some v =>
        have hmem := Keyed.mem_of_find? ((find?_spell_members hs.unnamed kw).trans hv)
        exact read_write hs ih hv ((nesting_le_members hmem).trans hmembers)
    · -- The other members are sorted and canonical already.
      rw [unnamed_members hs.unnamed, sortedMembers_eq,
        map_sorted_eq_self fun e he => (hs.values e he).sorted_eq]
      exact hs.extra.overlay_nil.symm

/-- Each member of the first part comes from a keyword with a slot. -/
theorem write_of_mem_slotMembers {e : String × Value} (h : e ∈ s.slotMembers) :
    ∃ kw : Keyword, kw.write (s.get kw) = some e.2 := by
  obtain ⟨kw, -, he⟩ := List.mem_flatMap.mp h
  refine ⟨kw, ?_⟩
  unfold member at he
  split at he
  · next v hv =>
    obtain rfl := List.mem_singleton.mp he
    exact hv
  · exact absurd he List.not_mem_nil

/-- A property of values that canonical values have, and that lists, and objects that repeat no
key, have if what is in them has it. -/
structure Composes (P : Value → Prop) : Prop where
  canonical : ∀ ⦃v⦄, v.Canonical → P v
  array : ∀ ⦃items⦄, (∀ v ∈ items, P v) → P (.array items)
  object : ∀ ⦃members : List (String × Value)⦄, (Keyed.keys members).Nodup →
    (∀ e ∈ members, P e.2) → P (.object members)

variable {P : Value → Prop}

/-- What a slot is written as has the property, if the nodes in it do. -/
theorem write_composed (hP : Composes P) (hs : s.Sound) (hbelow : ∀ t, Child s t → P t.toValue)
    (hv : kw.write (s.get kw) = some v) : P v := by
  -- By the slot: what is below a node are canonical values, nodes, or tables and lists of nodes.
  cases kw with
  | type | description | format =>
    obtain ⟨a, -, rfl⟩ := Option.map_eq_some_iff.mp hv
    exact hP.canonical (.string a)
  | properties =>
    rw [eq_object_of_propertiesValue hv, tableMembers_eq]
    refine hP.object ?_ fun e he => ?_
    · rw [Keyed.keys_map]
      exact hs.properties.nodup
    · obtain ⟨e', he', rfl⟩ := List.mem_map.mp he
      exact hbelow e'.2 (.property (k := e'.1) he')
  | required =>
    rw [unlessEmpty_eq_some hv]
    refine hP.array fun w hw => ?_
    obtain ⟨name, -, rfl⟩ := List.mem_map.mp hw
    exact hP.canonical (.string name)
  | items =>
    rcases itemsValue_eq_some hv with ⟨t, hitems, rfl⟩ | ⟨ts, hitems, rfl⟩
    · exact hbelow t (.every hitems)
    · rw [listValues_eq]
      refine hP.array fun w hw => ?_
      obtain ⟨t, ht, rfl⟩ := List.mem_map.mp hw
      exact hbelow t (.positional hitems ht)
  | additionalProperties =>
    rcases additionalValue_eq_some hv with ⟨b, -, rfl⟩ | ⟨t, hrule, rfl⟩
    · exact hP.canonical (.bool b)
    · exact hbelow t (.matching hrule)
  | enumValues =>
    obtain rfl : v = .array s.enumValues := unlessEmpty_eq_some hv
    exact hP.array fun w hw => hP.canonical (hs.enum w hw)
  | default => exact hP.canonical (hs.default v hv).2
  | nullable =>
    obtain ⟨-, rfl⟩ := nullable_eq_some hv
    exact hP.canonical (.bool true)
  | preserveUnknownFields =>
    obtain ⟨b, -, rfl⟩ := Option.map_eq_some_iff.mp hv
    exact hP.canonical (.bool b)

/-- **What a regular node is written as has the property.** -/
theorem Regular.composed (hP : Composes P) (h : Regular s) : P s.toValue := by
  induction h with
  | @node s hs _ ih =>
    rw [toValue_eq]
    refine hP.object (nodup_keys_members hs.unnamed hs.extra.nodup) fun e he => ?_
    rcases List.mem_append.mp he with he | he
    · obtain ⟨kw, hkw⟩ := write_of_mem_slotMembers he
      exact write_composed hP hs ih hkw
    · exact hP.canonical (hs.values e he)

theorem Regular.toValue_proper (h : Regular s) : s.toValue.Proper :=
  h.composed ⟨fun _ hv => hv.proper, fun _ => .array, fun _ _ => .object⟩

theorem Regular.toValue_distinctKeys (h : Regular s) : s.toValue.DistinctKeys :=
  h.composed ⟨fun _ hv => hv.distinctKeys, fun _ => .array, fun _ => .object⟩

/-- Two regular nodes that are written as one value are one node. -/
theorem Regular.toValue_inj (hs : Regular s) (ht : Regular t) (heq : s.toValue = t.toValue) :
    s = t := by
  have hread := hs.readsBack le_rfl
  rw [heq, ht.readsBack le_rfl] at hread
  exact (Except.ok.inj hread).symm

/-- A regular node whose numbers come back from their texts is its own echo. -/
theorem Regular.echo_eq (h : Regular s) (hstable : s.toValue.Stable) : s.echo = s := by
  have hself : s.toValue.echo = s.toValue := hstable
  have hecho := ofTree_echo le_rfl (h.readsBack le_rfl)
  rw [hself, h.readsBack le_rfl] at hecho
  exact (Except.ok.inj hecho).symm

theorem Regular.compact_inj (hs : Regular s) (ht : Regular t) (heq : s.compact = t.compact) :
    s = t :=
  hs.toValue_inj ht (hs.toValue_proper.compact_inj ht.toValue_proper heq)

/-- **The compact text of a regular node is read as its echo**, if it does not nest too deep. -/
theorem Regular.read_compact (h : Regular s) (hdepth : s.toValue.nesting ≤ maxDepth) :
    codec.read (Document.ofText s.compact) = .ok s.echo := by
  rw [compact, ofText_compact h.toValue_proper, Codec.read, decode_document]
  exact ofTree_echo hdepth (h.readsBack hdepth)

/-- **Every reachable node reads back**: at every depth it has no default that is `null` and no
other keyword under the name of a field. If it does not nest too deep, its compact text is read,
and as the node itself when the numbers in it come back from their texts. No other reachable node
has the same text. -/
theorem reachable_reads_back (h : Reachable s) :
    (∀ t, Within t s → t.default ≠ some .null
        ∧ ∀ kw : Keyword, Spelled.spell kw ∉ Keyed.keys t.extra)
      ∧ (s.toValue.nesting ≤ maxDepth →
          codec.read (Document.ofText s.compact) = .ok s.echo
            ∧ (s.toValue.Stable → codec.read (Document.ofText s.compact) = .ok s))
      ∧ ∀ t, Reachable t → s.compact = t.compact → s = t := by
  refine ⟨fun t ht => ?_, fun hdepth => ?_, fun t ht => h.regular.compact_inj ht.regular⟩
  · have hsound := (h.regular.within ht).sound
    refine ⟨fun hnull => (hsound.default _ hnull).1 rfl, fun kw hkw => ?_⟩
    exact absurd (hsound.unnamed _ hkw) (by simp [kw.ofText?_spell])
  · have hread := h.regular.read_compact hdepth
    refine ⟨hread, fun hstable => ?_⟩
    rw [hread, h.regular.echo_eq hstable]

/-- An object with two texts, declared in either order. -/
theorem strings_read_back :
    (string.default ≠ some .null ∧ ∀ kw : Keyword, Spelled.spell kw ∉ Keyed.keys string.extra)
      ∧ codec.read (Document.ofText (strings ["name", "uid"]).compact)
          = .ok (strings ["name", "uid"])
      ∧ strings ["name", "uid"] = strings ["uid", "name"] := by
  have hstring : Reachable string := .typed "string"
  have hobject : Reachable object := .typed "object"
  have hfirst : Reachable (strings ["name", "uid"]) :=
    (hobject.withProperty hstring "name").withProperty hstring "uid"
  have hsecond : Reachable (strings ["uid", "name"]) :=
    (hobject.withProperty hstring "uid").withProperty hstring "name"
  have h := reachable_reads_back hfirst
  have hwithin : Within string (strings ["name", "uid"]) :=
    .single (.property (k := "name") List.mem_cons_self)
  have hstable : (strings ["name", "uid"]).toValue.Stable := rfl
  exact ⟨h.1 string hwithin, (h.2.1 (by decide)).2 hstable, h.2.2 _ hsecond (by decide)⟩

end CompositeCrd.Schema
