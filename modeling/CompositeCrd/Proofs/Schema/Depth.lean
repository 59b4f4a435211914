import CompositeCrd.Proofs.Schema.Reread
import CompositeCrd.Proofs.Schema.RoundTrip
import CompositeCrd.Proofs.Schema.Acceptance

/-!
# How deep a node is written

Reading a node and writing it again drops keywords and changes the order of members, but there
is one way in which it makes a document deeper: `null` among the properties becomes an empty
object. So a node that has been read from as deep a document as there may be can be written
deeper than what may be read.

`NullEntry l w` says that this can be seen: some property of the node `w` is `null`, and its
table is the object at level `l`. What is left of `w` (`canon`) is deeper than some bound on
the nesting of `w` exactly when there is such an entry at the bound (`nesting_canon_le_iff`), and
a node is written as deep as what is left of its document (`nesting_toValue`).
-/

namespace CompositeCrd

open Json

namespace Schema

variable {s n : Schema} {w v : Value} {l d depth : Nat} {k : String}
  {ms es : List (String × Value)} {vs : List Value}

/-- **A property of a node is `null`**, at any depth, and its table is the object at level `l`,
where the node itself is the one at level 1. -/
inductive NullEntry : Nat → Value → Prop
  | entry {ms es : List (String × Value)} {k : String} (table : ("properties", .object es) ∈ ms)
    (null : (k, .null) ∈ es) : NullEntry 2 (.object ms)
  | property {l : Nat} {ms es : List (String × Value)} {k : String} {v : Value}
    (table : ("properties", .object es) ∈ ms) (mem : (k, v) ∈ es) (below : NullEntry l v) :
    NullEntry (l + 2) (.object ms)
  | every {l : Nat} {ms : List (String × Value)} {v : Value} (mem : ("items", v) ∈ ms)
    (below : NullEntry l v) : NullEntry (l + 1) (.object ms)
  | positional {l : Nat} {ms : List (String × Value)} {vs : List Value} {v : Value}
    (list : ("items", .array vs) ∈ ms) (mem : v ∈ vs) (below : NullEntry l v) :
    NullEntry (l + 2) (.object ms)
  | matching {l : Nat} {ms : List (String × Value)} {v : Value}
    (mem : ("additionalProperties", v) ∈ ms) (below : NullEntry l v) :
    NullEntry (l + 1) (.object ms)

/-- Only an object is a node. -/
theorem NullEntry.exists_object (h : NullEntry l w) : ∃ ms, w = .object ms := by
  cases h with
  | entry | property | every | positional | matching => exact ⟨_, rfl⟩

/-- The table stands in the value. -/
theorem NullEntry.le_nesting (h : NullEntry l w) : l ≤ w.nesting := by
  induction h with
  -- The entry stands in a table, and that in the node.
  | @entry ms es k htable _ =>
    have hes : 1 ≤ (Value.object es).nesting := Nat.succ_le_succ (Nat.zero_le _)
    exact Nat.succ_le_succ (hes.trans (nesting_le_members htable))
  | @property l ms es k v htable hmem _ ih =>
    have hes : l + 1 ≤ (Value.object es).nesting :=
      Nat.succ_le_succ (ih.trans (nesting_le_members hmem))
    exact Nat.succ_le_succ (hes.trans (nesting_le_members htable))
  | every hmem _ ih | matching hmem _ ih =>
    exact Nat.succ_le_succ (ih.trans (nesting_le_members hmem))
  | @positional l ms vs v hlist hmem _ ih =>
    have hvs : l + 1 ≤ (Value.array vs).nesting :=
      Nat.succ_le_succ (ih.trans (nesting_le_items hmem))
    exact Nat.succ_le_succ (hvs.trans (nesting_le_members hlist))

/-! ### What is left of a value in a role -/

/-- A member of the canonical form comes from a member of the value. -/
theorem mem_canonMembers : (k, w) ∈ canonMembers ms
    ↔ ∃ v, (k, v) ∈ ms ∧ canonIn (roleOf k) v = some w := by
  rw [canonMembers_eq, List.mem_filterMap]
  refine ⟨?_, ?_⟩
  · rintro ⟨⟨k', v⟩, hmem, hw⟩
    obtain ⟨w', hw', heq⟩ := Option.map_eq_some_iff.mp hw
    obtain ⟨rfl, rfl⟩ := Prod.mk.inj heq
    exact ⟨v, hmem, hw'⟩
  · rintro ⟨v, hmem, hw⟩
    exact ⟨(k, v), hmem, Option.map_eq_some_iff.mpr ⟨w, hw, rfl⟩⟩

/-- **What is left of a member** is the member itself, unless there are nodes in it. -/
inductive Left : String → Value → Value → Prop
  | same (k : String) (v : Value) : Left k v v
  | properties (es : List (String × Value)) :
    Left "properties" (.object es) (.object (canonEntries es))
  | every (ms : List (String × Value)) : Left "items" (.object ms) (canon (.object ms))
  | positional (vs : List Value) : Left "items" (.array vs) (.array (canonItems vs))
  | matching (ms : List (String × Value)) :
    Left "additionalProperties" (.object ms) (canon (.object ms))

/-- The roles that descend into schemas belong to one keyword each. -/
theorem roleOf_eq_properties (h : roleOf k = .properties) : k = "properties" := by
  unfold roleOf at h
  split at h <;> first | rfl | exact absurd h (by decide)

/-- The role of items is that of `items`. -/
theorem roleOf_eq_items (h : roleOf k = .items) : k = "items" := by
  unfold roleOf at h
  split at h <;> first | rfl | exact absurd h (by decide)

/-- The role of further properties is that of `additionalProperties`. -/
theorem roleOf_eq_additional (h : roleOf k = .additional) : k = "additionalProperties" := by
  unfold roleOf at h
  split at h <;> first | rfl | exact absurd h (by decide)

/-- What is left of a member, by the role of its key. -/
theorem left_of_canonIn (h : canonIn (roleOf k) v = some w) : Left k v w := by
  unfold canonIn at h
  split at h
  case h_1 => exact Option.some.inj h ▸ .same k _
  -- The roles below name the keyword, and what is left by them.
  case h_4 hrole =>
    obtain rfl := roleOf_eq_properties hrole
    exact Option.some.inj h ▸ .properties _
  case h_6 hrole =>
    obtain rfl := roleOf_eq_items hrole
    exact Option.some.inj h ▸ .every _
  case h_7 hrole =>
    obtain rfl := roleOf_eq_items hrole
    exact Option.some.inj h ▸ .positional _
  case h_8 hrole =>
    obtain rfl := roleOf_eq_additional hrole
    exact Option.some.inj h ▸ .matching _
  case h_11 => exact Option.some.inj h ▸ .same k _
  all_goals exact absurd h (by simp)

/-- Each member of the canonical form is what is left of one. -/
theorem left_of_mem_canonMembers (h : (k, w) ∈ canonMembers ms) :
    ∃ v, (k, v) ∈ ms ∧ Left k v w := by
  obtain ⟨v, hmem, hv⟩ := mem_canonMembers.mp h
  exact ⟨v, hmem, left_of_canonIn hv⟩

/-- A member of which something is left is in the canonical form. -/
theorem mem_canonMembers_of_mem (h : (k, v) ∈ ms) (hv : canonIn (roleOf k) v = some w) :
    (k, w) ∈ canonMembers ms :=
  mem_canonMembers.mpr ⟨v, h, hv⟩

/-! ### The nesting of what is left -/

theorem lt_nesting_object {e : String × Value} (h : e ∈ ms) (hlt : l ≤ e.2.nesting) :
    l < (Value.object ms).nesting :=
  Nat.lt_succ_of_le (hlt.trans (nesting_le_members h))

theorem lt_nesting_array (h : v ∈ vs) (hlt : l ≤ v.nesting) : l < (Value.array vs).nesting :=
  Nat.lt_succ_of_le (hlt.trans (nesting_le_items h))

/-- A table that is left, with one of its entries. -/
theorem lt_nesting_canon_of_entry (htable : ("properties", .object es) ∈ ms) (hmem : (k, v) ∈ es)
    (hlt : l ≤ (canonEntry v).nesting) : l + 1 < (canon (.object ms)).nesting := by
  -- The table is left, and in it each of its entries.
  have hleft : ("properties", .object (canonEntries es)) ∈ canonMembers ms := by
    refine mem_canonMembers_of_mem htable ?_
    cases es with
    | nil => exact absurd hmem List.not_mem_nil
    | cons e es => rfl
  have hentry : (k, canonEntry v) ∈ canonEntries es := by
    rw [canonEntries_eq]
    exact List.mem_map_of_mem hmem
  exact lt_nesting_object hleft (lt_nesting_object hentry hlt)

/-- **Where a property is `null`, an empty object is left, one level below its table.** -/
theorem NullEntry.lt_nesting_canon (h : NullEntry l w) : l < (canon w).nesting := by
  induction h with
  -- The empty object is nested once itself.
  | entry htable hnull => exact lt_nesting_canon_of_entry htable hnull le_rfl
  | @property l ms es k v htable hmem hbelow ih =>
    obtain ⟨ms', rfl⟩ := hbelow.exists_object
    exact lt_nesting_canon_of_entry htable hmem ih
  | every hmem hbelow ih =>
    obtain ⟨ms', rfl⟩ := hbelow.exists_object
    exact lt_nesting_object (mem_canonMembers_of_mem hmem rfl) ih
  | @positional l ms vs v hlist hmem hbelow ih =>
    have hitem : canon v ∈ canonItems vs := by
      rw [canonItems_eq]
      exact List.mem_map_of_mem hmem
    exact lt_nesting_object (mem_canonMembers_of_mem hlist rfl) (lt_nesting_array hitem ih)
  | matching hmem hbelow ih =>
    obtain ⟨ms', rfl⟩ := hbelow.exists_object
    exact lt_nesting_object (mem_canonMembers_of_mem hmem rfl) ih

/-- The depth of an object is that of one of its members. -/
theorem exists_lt_of_lt_nestingMembers (h : d < nestingMembers ms) :
    ∃ e ∈ ms, d < e.2.nesting := by
  by_contra hnone
  push Not at hnone
  exact absurd (nestingMembers_le_iff.mpr hnone) (by omega)

/-- The depth of an array is that of one of its items. -/
theorem exists_lt_of_lt_nestingItems (h : d < nestingItems vs) : ∃ v ∈ vs, d < v.nesting := by
  by_contra hnone
  push Not at hnone
  exact absurd (nestingItems_le_iff.mpr hnone) (by omega)

/-- **What is left is deeper than a value for such an entry only**, and one at the bound on the
nesting of the value. -/
theorem nullEntry_of_lt_nesting_canon (hw : w.nesting ≤ d) (hlt : d < (canon w).nesting) :
    NullEntry d w := by
  -- The nodes below are one or two levels further down, so the induction is on the bound.
  induction d using Nat.strong_induction_on generalizing w with
  | h d ih =>
    cases w with
    | object ms =>
      obtain ⟨d, rfl, hms⟩ := depth_of_object hw
      obtain ⟨⟨k, w⟩, hmem, hlt⟩ := exists_lt_of_lt_nestingMembers (Nat.lt_of_succ_lt_succ hlt)
      obtain ⟨v, hv, hleft⟩ := left_of_mem_canonMembers hmem
      have hbound : v.nesting ≤ d := (nesting_le_members hv).trans hms
      -- The deep member has a node in it that is deep by itself, or else the entry.
      cases hleft with
      | same => exact absurd hlt (Nat.not_lt.mpr hbound)
      | every ms' => exact .every hv (ih d (by omega) hbound hlt)
      | matching ms' => exact .matching hv (ih d (by omega) hbound hlt)
      | positional vs =>
        obtain ⟨d, rfl, hvs⟩ := depth_of_array hbound
        obtain ⟨w, hw, hlt⟩ := exists_lt_of_lt_nestingItems (Nat.lt_of_succ_lt_succ hlt)
        rw [canonItems_eq] at hw
        obtain ⟨v, hmem, rfl⟩ := List.mem_map.mp hw
        exact .positional hv hmem (ih d (by omega) ((nesting_le_items hmem).trans hvs) hlt)
      | properties es =>
        obtain ⟨d, rfl, hes⟩ := depth_of_object hbound
        obtain ⟨e, he, hlt⟩ := exists_lt_of_lt_nestingMembers (Nat.lt_of_succ_lt_succ hlt)
        rw [canonEntries_eq] at he
        obtain ⟨⟨k', v⟩, hmem, rfl⟩ := List.mem_map.mp he
        have hle : v.nesting ≤ d := (nesting_le_members hmem).trans hes
        cases v with
        | null =>
          -- An empty object is one level deep, so there is no level left below the table.
          obtain rfl : d = 0 := Nat.lt_one_iff.mp hlt
          exact .entry hv hmem
        | _ => exact .property hv hmem (ih d (by omega) hle hlt)
    | _ => exact absurd hlt (Nat.not_lt.mpr hw)

/-- **What is left of a value goes beyond a bound on its nesting** exactly when a property at the
bound is `null`. -/
theorem nesting_canon_le_iff (hw : w.nesting ≤ d) : (canon w).nesting ≤ d ↔ ¬NullEntry d w := by
  refine ⟨fun hle h => absurd h.lt_nesting_canon (Nat.not_lt.mpr hle), fun h => ?_⟩
  by_contra hlt
  exact h (nullEntry_of_lt_nesting_canon hw (Nat.lt_of_not_le hlt))

/-! ### The nesting of a node -/

/-- An entry of a table keeps its keys distinct when a schema does. -/
theorem distinctKeys_canonEntry (h : v.DistinctKeys → (canon v).DistinctKeys)
    (hv : v.DistinctKeys) : (canonEntry v).DistinctKeys := by
  cases v with
  | null => exact .object List.nodup_nil (by simp)
  | _ => exact h hv

/-- What is left repeats no key, neither of a node nor of one of its members. -/
theorem distinctKeys_canon (h : w.DistinctKeys) :
    (canon w).DistinctKeys ∧ ∀ ⦃k v⦄, Left k w v → v.DistinctKeys := by
  induction h with
  | @object ms hkeys hms ih =>
    -- The keys of the canonical form are some of the keys of the value.
    have hnode : (canon (.object ms)).DistinctKeys := by
      refine .object (hkeys.sublist (keys_canonMembers ms)) fun e he => ?_
      obtain ⟨v, hv, hleft⟩ := left_of_mem_canonMembers he
      exact (ih _ hv).2 hleft
    refine ⟨hnode, fun k v hleft => ?_⟩
    -- What is left of a value under a key: the value, a schema, or a table of schemas.
    cases hleft with
    | same => exact .object hkeys hms
    | every | matching => exact hnode
    | properties =>
      rw [canonEntries_eq]
      refine .object (by rwa [Keyed.keys_map]) fun e he => ?_
      obtain ⟨e', he', rfl⟩ := List.mem_map.mp he
      exact distinctKeys_canonEntry (fun _ => (ih e' he').1) (hms e' he')
  | @array vs hvs ih =>
    refine ⟨.array hvs, fun k v hleft => ?_⟩
    cases hleft with
    | same => exact .array hvs
    | positional =>
      rw [canonItems_eq]
      refine .array fun v hv => ?_
      obtain ⟨v', hv', rfl⟩ := List.mem_map.mp hv
      exact (ih v' hv').1
  | null | bool | number | string =>
    refine ⟨by simp [canon], fun k v hleft => ?_⟩
    cases hleft
    simp

/-- **A node is written as deep as what is left of the value it is read from.** -/
theorem nesting_toValue (hw : w.Canonical) (hread : ofTree depth w.tree = .ok n)
    (hdepth : w.nesting ≤ depth) : n.toValue.nesting = (canon w).nesting := by
  have hregular := (Tree.readsRegular hw.proper.tree).node hread
  have hsorted := ((agreement hw.distinctKeys).node hdepth).good n hread
  rw [← nesting_sorted hregular.toValue_distinctKeys, hsorted,
    nesting_sorted (distinctKeys_canon hw.distinctKeys).1]

/-- An entry of a property tree gets as deep as what is left of it. -/
theorem nesting_entry_le_iff (hv : v.Canonical) (hread : readEntry depth v.tree = .ok n)
    (hdepth : v.nesting ≤ depth) (hpos : 0 < d) (hd : v.nesting ≤ d) :
    n.toValue.nesting ≤ d ↔ ¬NullEntry d v := by
  -- An entry that is `null` is read as the blank node, which is written as an empty object.
  by_cases hnull : v = .null
  · subst hnull
    obtain rfl := Except.ok.inj hread
    refine iff_of_true hpos fun h => ?_
    obtain ⟨ms, hms⟩ := h.exists_object
    exact absurd hms (by simp)
  · have hne : v.tree ≠ .null := by
      cases v with
      | null => exact absurd rfl hnull
      | _ => simp [Value.tree]
    rw [readEntry_of_ne hne] at hread
    rw [nesting_toValue hv hread hdepth, nesting_canon_le_iff hd]

/-- **A node that was read is read again from its text**, unless a property of its document is
`null` as deep as a document may be; and then nothing is. What is read again is the echo of the
node. -/
theorem read_compact_iff {s : List Symbol} (h : codec.read (.ofSymbols s) = .ok n) :
    ∃ w, (Document.ofSymbols s).decode Tree.value = .ok w
      ∧ ((∃ m, codec.read (.ofText n.compact) = .ok m) ↔ ¬NullEntry maxDepth w)
      ∧ ∀ m, codec.read (.ofText n.compact) = .ok m → m = n.echo := by
  obtain ⟨hroot, hended⟩ := decode_eq_ok_iff.mp h
  have hproper := ofSymbols_proper s
  have hregular := (Tree.readsRegular hproper).node hroot
  obtain ⟨w, hw, hread⟩ := (Tree.rereads hproper).node maxDepth hroot
  have hbound := Tree.nesting_of_value hw
  have hnesting := nesting_toValue (Tree.value_canonical hproper hw) hread hbound
  -- What is read at all has been read as a value, so it is not too deep.
  have hdepth : ∀ m, codec.read (.ofText n.compact) = .ok m → n.toValue.nesting ≤ maxDepth := by
    intro m hm
    rw [compact, ofText_compact hregular.toValue_proper, Codec.read, decode_document] at hm
    obtain ⟨v, hv, -⟩ := (Tree.rereads hregular.toValue_proper.echo.tree).node maxDepth hm
    exact (Value.nesting_echo _).symm.trans_le (nesting_of_value_tree hv)
  refine ⟨w, decode_eq_ok_iff.mpr ⟨hw, hended⟩, ?_, fun m hm => ?_⟩
  · rw [← nesting_canon_le_iff hbound, ← hnesting]
    refine ⟨?_, fun hle => ⟨n.echo, hregular.read_compact hle⟩⟩
    rintro ⟨m, hm⟩
    exact hdepth m hm
  · have hback := hregular.read_compact (hdepth m hm)
    exact Except.ok.inj (hm.symm.trans hback)

/-! ### Declared properties -/

/-- The node `w` declares the property `k` as `u`. -/
def Declares (w : Value) (k : String) (u : Value) : Prop :=
  ∃ ms es, w = .object ms ∧ ("properties", .object es) ∈ ms ∧ (k, u) ∈ es

/-- A declared property stands two levels below the node. -/
theorem Declares.nesting_le (h : Declares w k v) : v.nesting + 2 ≤ w.nesting := by
  obtain ⟨ms, es, rfl, htable, hmem⟩ := h
  have hes : v.nesting + 1 ≤ (Value.object es).nesting := Nat.succ_le_succ (nesting_le_members hmem)
  exact Nat.succ_le_succ (hes.trans (nesting_le_members htable))

/-- What a canonical value declares is canonical. -/
theorem Declares.canonical (h : Declares w k v) (hw : w.Canonical) : v.Canonical := by
  obtain ⟨ms, es, rfl, htable, hmem⟩ := h
  cases hw with
  | object _ hms =>
    cases hms _ htable with
    | object _ hes => exact hes _ hmem

/-- The entries of a property tree that was read, one by one. -/
theorem forall₂_of_tableOfTree {m : PropertyTree} (hes : Keyed.Sorted es)
    (h : tableOfTree depth (Value.object es).tree = .ok m) :
    List.Forall₂ (fun e e' => e'.1 = e.1 ∧ readEntry (depth - 1) e.2.tree = .ok e'.2) es m := by
  cases depth with
  | zero => exact absurd h (by simp [Value.tree, tableOfTree])
  | succ depth =>
    obtain ⟨layer, hlayer, rfl⟩ := tableOfMembers_eq_ok_iff.mp h
    -- The keys ascend, so the layer is a table by itself.
    have hkeys : Keyed.keys layer = Keyed.keys es := map_eq_of_forall₂ hlayer fun _ _ _ he => he.1
    have hsorted : Keyed.Sorted layer := by
      rw [Keyed.sorted_iff_keys, hkeys]
      exact Keyed.sorted_iff_keys.mp hes
    rwa [hsorted.overlay_nil]

/-- **The properties of an entry that was read** are those that its value declares, each read
where it stands. -/
theorem exists_declared (hw : w.Canonical) (hdepth : w.nesting ≤ depth)
    (hread : readEntry depth w.tree = .ok n) :
    ∃ es : List (String × Value), (∀ k u, Declares w k u ↔ (k, u) ∈ es)
      ∧ List.Forall₂ (fun e e' => e'.1 = e.1 ∧ readEntry (depth - 2) e.2.tree = .ok e'.2) es
          n.properties := by
  cases hw with
  | @object ms hsorted hms =>
    obtain ⟨depth, rfl, hbound⟩ := depth_of_object hdepth
    have hslot := ((ofMembers_eq_ok_iff hbound).mp hread).2.2.1 .properties
    -- Keys are not repeated, so a table that declares something is the member of the keyword.
    have htable : ∀ k u, Declares (.object ms) k u ↔
        ∃ es, Keyed.find? (Spelled.spell Keyword.properties) ms = some (.object es)
          ∧ (k, u) ∈ es := by
      refine fun k u => ⟨?_, ?_⟩
      · rintro ⟨_, es, ⟨⟩, hmem, hu⟩
        exact ⟨es, Keyed.find?_of_mem hsorted.nodup hmem, hu⟩
      · rintro ⟨es, hes, hu⟩
        exact ⟨ms, es, rfl, Keyed.mem_of_find? hes, hu⟩
    simp only [htable]
    cases hfind : Keyed.find? (Spelled.spell Keyword.properties) ms with
    | none =>
      rw [hfind] at hslot
      have hnil : n.properties = [] := hslot
      exact ⟨[], by simp, hnil ▸ .nil⟩
    | some v =>
      rw [hfind] at hslot
      obtain ⟨a, ha, hslot⟩ := map_eq_ok.mp hslot
      have hproperties : n.properties = a.getD [] := hslot.symm
      rw [hproperties]
      cases hms _ (Keyed.mem_of_find? hfind) with
      | @object es hes _ =>
        rw [optional_of_ne _ (by simp)] at ha
        obtain ⟨m, hm, rfl⟩ := map_eq_ok.mp ha
        exact ⟨es, by simp, forall₂_of_tableOfTree hes hm⟩
      | null =>
        -- A table that is `null` counts as none.
        obtain rfl : none = a := Except.ok.inj ha
        exact ⟨[], by simp, .nil⟩
      | _ =>
        rw [optional_of_ne _ (by simp)] at ha
        obtain ⟨m, hm, -⟩ := map_eq_ok.mp ha
        exact absurd hm (by simp [readings, Value.tree, tableOfTree])
  | null =>
    obtain rfl := Except.ok.inj hread
    exact ⟨[], by simp [Declares], .nil⟩
  | _ => exact absurd hread (by simp [Value.tree, readEntry, ofTree])

/-- A property that has been read was declared, one table further in. -/
theorem exists_declares_of_mem {t : Schema} (hw : w.Canonical) (hdepth : w.nesting ≤ depth)
    (hread : readEntry depth w.tree = .ok n) (ht : (k, t) ∈ n.properties) :
    ∃ u, Declares w k u ∧ readEntry (depth - 2) u.tree = .ok t := by
  obtain ⟨es, hes, hall⟩ := exists_declared hw hdepth hread
  obtain ⟨⟨_, u⟩, hu, heq, hread⟩ := exists_of_forall₂ hall ht
  obtain rfl := heq
  exact ⟨u, (hes _ u).mpr hu, hread⟩

/-- A property that is declared is read. -/
theorem Declares.exists_mem {u : Value} (h : Declares w k u) (hw : w.Canonical)
    (hdepth : w.nesting ≤ depth) (hread : readEntry depth w.tree = .ok n) :
    ∃ t, (k, t) ∈ n.properties ∧ readEntry (depth - 2) u.tree = .ok t := by
  obtain ⟨es, hes, hall⟩ := exists_declared hw hdepth hread
  obtain ⟨⟨_, t⟩, ht, heq, hread⟩ := exists_of_forall₂ hall.flip ((hes k u).mp h)
  obtain rfl := heq
  exact ⟨t, ht, hread⟩

end Schema

end CompositeCrd
