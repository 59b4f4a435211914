import CompositeCrd.Json.Decode
import CompositeCrd.Proofs.Json.Numeral
import CompositeCrd.Proofs.Keyed
import CompositeCrd.Proofs.Outcome

/-!
# Values and the documents that write them

A document that can be read to its end is the image of a value: `Value.tree` puts every member
and every item at its place, and nothing else stands in such a tree. So a statement about all
documents that write a value, in whatever layout, is a statement about its tree.

What a single step of a reader does is told once for each kind of tree (`Tree.list_eq_ok_iff`,
`Tree.members_eq_ok_iff`, `Tree.value_array_eq_ok_iff`, `Tree.value_object_eq_ok_iff`).

Embedded values are read by `Tree.value`, which sorts members. Three facts about it are used
throughout:

* it reads the tree of `v` as `v.sorted` when `v` does not nest too deep (`value_tree`),
* it gives canonical values only, whose members ascend and whose numbers are proper
  (`Tree.value_canonical`),
* a canonical value is its own sorted form (`Value.Canonical.sorted_eq`).
-/

namespace CompositeCrd.Json

/-- Induction on a value, with the hypothesis for every item and every member's value. -/
theorem Value.induction {P : Value → Prop} (null : P .null) (bool : ∀ b, P (.bool b))
    (number : ∀ n, P (.number n)) (string : ∀ s, P (.string s))
    (array : ∀ items, (∀ v ∈ items, P v) → P (.array items))
    (object : ∀ members : List (String × Value), (∀ e ∈ members, P e.2) → P (.object members))
    (v : Value) : P v :=
  match v with
  | .null => null
  | .bool b => bool b
  | .number n => number n
  | .string s => string s
  | .array items => array items fun v _ => v.induction null bool number string array object
  | .object members =>
    object members fun e _ => e.2.induction null bool number string array object
termination_by v
decreasing_by
  · -- A part is smaller than the whole, since it is a member of a list in it.
    have := List.sizeOf_lt_of_mem ‹v ∈ items›
    simp only [Value.array.sizeOf_spec]
    omega
  · have := List.sizeOf_lt_of_mem ‹e ∈ members›
    obtain ⟨k, v⟩ := e
    simp only [Value.object.sizeOf_spec, Prod.mk.sizeOf_spec] at *
    omega

mutual

/-- The number of lists and objects that are nested in a value, counted along the deepest
branch. -/
def Value.nesting : Value → Nat
  | .array items => nestingItems items + 1
  | .object members => nestingMembers members + 1
  | _ => 0

/-- The nesting of the deepest item. -/
def nestingItems : List Value → Nat
  | [] => 0
  | v :: items => max v.nesting (nestingItems items)

/-- The nesting of the deepest member. -/
def nestingMembers : List (String × Value) → Nat
  | [] => 0
  | (_, v) :: members => max v.nesting (nestingMembers members)

end

mutual

/-- The tree of a document that writes a value. -/
def Value.tree : Value → Tree
  | .null => .null
  | .bool b => .bool b
  | .number n => .number (some n)
  | .string s => .string (some s)
  | .array items => .array (itemsTree items)
  | .object members => .object (membersTree members)

/-- The items of a document that writes a list. -/
def itemsTree : List Value → Items
  | [] => .closed
  | v :: items => .item v.tree (itemsTree items)

/-- The members of a document that writes an object. -/
def membersTree : List (String × Value) → Members
  | [] => .closed
  | (k, v) :: members => .member (some k) v.tree (membersTree members)

end

/-- A document that writes a value and ends behind it. -/
def Value.document (v : Value) : Document :=
  ⟨v.tree, true⟩

/-- A value that reading can produce: members ascend, and numbers are proper. -/
inductive Value.Canonical : Value → Prop
  | null : Canonical .null
  | bool (b : Bool) : Canonical (.bool b)
  | number {n : Number} (h : n.Proper) : Canonical (.number n)
  | string (s : String) : Canonical (.string s)
  | array {items : List Value} (h : ∀ v ∈ items, v.Canonical) : Canonical (.array items)
  | object {members : List (String × Value)} (h : Keyed.Sorted members)
    (h' : ∀ e ∈ members, e.2.Canonical) : Canonical (.object members)

/-- A value whose numbers are proper, its members in any order. -/
inductive Value.Proper : Value → Prop
  | null : Proper .null
  | bool (b : Bool) : Proper (.bool b)
  | number {n : Number} (h : n.Proper) : Proper (.number n)
  | string (s : String) : Proper (.string s)
  | array {items : List Value} (h : ∀ v ∈ items, v.Proper) : Proper (.array items)
  | object {members : List (String × Value)} (h : ∀ e ∈ members, e.2.Proper) :
    Proper (.object members)

/-- A value in which no object repeats a key. -/
inductive Value.DistinctKeys : Value → Prop
  | null : DistinctKeys .null
  | bool (b : Bool) : DistinctKeys (.bool b)
  | number (n : Number) : DistinctKeys (.number n)
  | string (s : String) : DistinctKeys (.string s)
  | array {items : List Value} (h : ∀ v ∈ items, v.DistinctKeys) : DistinctKeys (.array items)
  | object {members : List (String × Value)} (h : (Keyed.keys members).Nodup)
    (h' : ∀ e ∈ members, e.2.DistinctKeys) : DistinctKeys (.object members)

mutual

/-- A tree whose numbers are proper. -/
def Tree.Proper : Tree → Prop
  | .number (some n) => n.Proper
  | .array items => items.Proper
  | .object members => members.Proper
  | _ => True

/-- Items whose numbers are proper. -/
def Items.Proper : Items → Prop
  | .item t rest => t.Proper ∧ rest.Proper
  | _ => True

/-- Members whose numbers are proper. -/
def Members.Proper : Members → Prop
  | .member _ t rest => t.Proper ∧ rest.Proper
  | _ => True

end

variable {v : Value} {items : List Value} {members : List (String × Value)} {depth : Nat}

namespace Value

@[simp] theorem proper_number {n : Number} : (number n).Proper ↔ n.Proper :=
  ⟨fun | .number h => h, .number⟩

@[simp] theorem proper_array : (array items).Proper ↔ ∀ v ∈ items, v.Proper :=
  ⟨fun | .array h => h, .array⟩

@[simp] theorem proper_object : (object members).Proper ↔ ∀ e ∈ members, e.2.Proper :=
  ⟨fun | .object h => h, .object⟩

@[simp] theorem distinctKeys_array : (array items).DistinctKeys ↔ ∀ v ∈ items, v.DistinctKeys :=
  ⟨fun | .array h => h, .array⟩

/-- An object repeats no key if its own keys are distinct and none of its values repeats one. -/
@[simp] theorem distinctKeys_object : (object members).DistinctKeys ↔
    (Keyed.keys members).Nodup ∧ ∀ e ∈ members, e.2.DistinctKeys :=
  ⟨fun | .object h h' => ⟨h, h'⟩, fun h => .object h.1 h.2⟩

attribute [simp] Proper.null Proper.bool Proper.string
  DistinctKeys.null DistinctKeys.bool DistinctKeys.number DistinctKeys.string

end Value

/-! ### Nesting -/

/-- No item is deeper than all items together. -/
theorem nesting_le_items (h : v ∈ items) : v.nesting ≤ nestingItems items := by
  induction items with
  | nil => exact absurd h List.not_mem_nil
  | cons w items ih =>
    rw [nestingItems]
    rcases List.mem_cons.mp h with rfl | h
    · exact Nat.le_max_left _ _
    · exact (ih h).trans (Nat.le_max_right _ _)

/-- No value is deeper than all members together. -/
theorem nesting_le_members {e : String × Value} (h : e ∈ members) :
    e.2.nesting ≤ nestingMembers members := by
  induction members with
  | nil => exact absurd h List.not_mem_nil
  | cons w members ih =>
    obtain ⟨k, v⟩ := w
    rw [nestingMembers]
    rcases List.mem_cons.mp h with rfl | h
    · exact Nat.le_max_left _ _
    · exact (ih h).trans (Nat.le_max_right _ _)

/-- Items are as deep as the deepest of them. -/
theorem nestingItems_le_iff {n : Nat} : nestingItems items ≤ n ↔ ∀ v ∈ items, v.nesting ≤ n := by
  induction items with
  | nil => exact iff_of_true (Nat.zero_le n) (by simp)
  | cons v items ih => rw [nestingItems, max_le_iff, ih, List.forall_mem_cons]

/-- Members are as deep as the deepest of their values. -/
theorem nestingMembers_le_iff {n : Nat} :
    nestingMembers members ≤ n ↔ ∀ e ∈ members, e.2.nesting ≤ n := by
  induction members with
  | nil => exact iff_of_true (Nat.zero_le n) (by simp)
  | cons e members ih =>
    obtain ⟨k, v⟩ := e
    rw [nestingMembers, max_le_iff, ih, List.forall_mem_cons]

/-- A list that does not nest too deep is entered, and leaves depth for its items. -/
theorem depth_of_array (h : (Value.array items).nesting ≤ depth) :
    ∃ d, depth = d + 1 ∧ nestingItems items ≤ d := by
  rw [Value.nesting] at h
  exact ⟨depth - 1, by omega, by omega⟩

/-- An object takes one level for itself. -/
theorem depth_of_object (h : (Value.object members).nesting ≤ depth) :
    ∃ d, depth = d + 1 ∧ nestingMembers members ≤ d := by
  rw [Value.nesting] at h
  exact ⟨depth - 1, by omega, by omega⟩

/-! ### Sorted members -/

/-- Items are sorted one by one, and stay in their order. -/
theorem sortedItems_eq (items : List Value) : sortedItems items = items.map Value.sorted := by
  induction items with
  | nil => rfl
  | cons v items ih => rw [sortedItems, ih, List.map_cons]

/-- Sorting members lays them over the table so far. -/
theorem sortedMembers_eq (m : Keyed Value) (members : List (String × Value)) :
    sortedMembers m members = Keyed.overlay m (members.map fun e => (e.1, e.2.sorted)) := by
  induction members generalizing m with
  | nil => rfl
  | cons e members ih => rw [sortedMembers, ih, List.map_cons, Keyed.overlay_cons]

theorem sorted_array (items : List Value) :
    (Value.array items).sorted = .array (items.map Value.sorted) := by
  rw [Value.sorted, sortedItems_eq]

/-- Sorting an object sorts its values, and puts its members in the order of their keys, the last
one for each key. -/
theorem sorted_object (members : List (String × Value)) : (Value.object members).sorted
    = .object (Keyed.overlay [] (members.map fun e => (e.1, e.2.sorted))) := by
  rw [Value.sorted, sortedMembers_eq]

/-- Only null is sorted to null. -/
theorem sorted_eq_null {v : Value} (h : v.sorted = .null) : v = .null := by
  -- Sorting keeps the kind of a value.
  cases v with
  | null => rfl
  | array items =>
    rw [sorted_array] at h
    exact absurd h (by simp)
  | object members =>
    rw [sorted_object] at h
    exact absurd h (by simp)
  | _ =>
    rw [Value.sorted.eq_def] at h
    exact absurd h (by simp)

/-- Only the empty object is sorted to the empty object. -/
theorem sorted_object_eq_empty (h : (Value.object members).sorted = .object []) :
    members = [] := by
  rw [sorted_object] at h
  exact List.map_eq_nil_iff.mp (Keyed.overlay_eq_nil_iff.mp (Value.object.inj h)).2

/-- Members with sorted values stay as they are. -/
theorem map_sorted_eq_self (h : ∀ e ∈ members, e.2.sorted = e.2) :
    (members.map fun e => (e.1, e.2.sorted)) = members := by
  refine (List.map_congr_left fun e he => ?_).trans (List.map_id members)
  rw [h e he]
  rfl

/-- Sorting twice is sorting once. -/
theorem sorted_sorted (v : Value) : v.sorted.sorted = v.sorted := by
  induction v using Value.induction with
  | null => rw [Value.sorted.eq_def, Value.sorted.eq_def]
  | bool b => rw [Value.sorted.eq_def, Value.sorted.eq_def]
  | number n => rw [Value.sorted.eq_def, Value.sorted.eq_def]
  | string s => rw [Value.sorted.eq_def, Value.sorted.eq_def]
  | array items ih =>
    rw [sorted_array, sorted_array, List.map_map]
    exact congrArg Value.array (List.map_congr_left ih)
  | object members ih =>
    rw [sorted_object, sorted_object]
    -- The members that are left have sorted values already, and ascend.
    have hfixed : ∀ e ∈ Keyed.overlay [] (members.map fun e => (e.1, e.2.sorted)),
        e.2.sorted = e.2 := by
      intro e he
      rcases Keyed.mem_overlay he with he | he
      · obtain ⟨e', he', rfl⟩ := List.mem_map.mp he
        exact ih e' he'
      · exact absurd he List.not_mem_nil
    rw [map_sorted_eq_self hfixed, Keyed.sorted_nil.overlay.overlay_nil]

/-- A member of a sorted object. -/
theorem find?_sorted {k : String} (h : (Keyed.keys members).Nodup) :
    Keyed.find? k (Keyed.overlay [] (members.map fun e => (e.1, e.2.sorted)))
      = (Keyed.find? k members).map Value.sorted := by
  rw [Keyed.find?_overlay (by rwa [Keyed.keys_map]), Keyed.find?_map, Keyed.find?_nil,
    Option.or_none]

/-- What holds of all members of a sorted object. -/
theorem forall_mem_sorted_iff {P : String × Value → Prop} (h : (Keyed.keys members).Nodup) :
    (∀ e ∈ Keyed.overlay [] (members.map fun e => (e.1, e.2.sorted)), P e)
      ↔ ∀ e ∈ members, P (e.1, e.2.sorted) := by
  refine ⟨?_, ?_⟩
  · -- Each member is found in the sorted table under its key.
    intro hall e he
    refine hall _ (Keyed.mem_of_find? ?_)
    rw [find?_sorted h, Keyed.find?_of_mem h he]
    rfl
  · intro hall e he
    -- What is in the sorted table comes from a member.
    rcases Keyed.mem_overlay he with he | he
    · obtain ⟨e', he', rfl⟩ := List.mem_map.mp he
      exact hall e' he'
    · exact absurd he List.not_mem_nil

/-- A sorted object repeats no key. -/
theorem distinctKeys_sorted (v : Value) : v.sorted.DistinctKeys := by
  induction v using Value.induction with
  | null => rw [Value.sorted.eq_def]; exact .null
  | bool b => rw [Value.sorted.eq_def]; exact .bool b
  | number n => rw [Value.sorted.eq_def]; exact .number n
  | string s => rw [Value.sorted.eq_def]; exact .string s
  | array items ih =>
    rw [sorted_array, Value.distinctKeys_array]
    exact List.forall_mem_map.mpr ih
  | object members ih =>
    rw [sorted_object]
    -- The keys are in strict order, and each value is that of some member.
    refine .object Keyed.sorted_nil.overlay.nodup fun e he => ?_
    rcases Keyed.mem_overlay he with he | he
    · obtain ⟨e', he', rfl⟩ := List.mem_map.mp he
      exact ih e' he'
    · exact absurd he List.not_mem_nil

/-- Sorting members that are not repeated takes nothing away. -/
theorem nesting_le_sorted (h : v.DistinctKeys) : v.nesting ≤ v.sorted.nesting := by
  induction h with
  | null => exact Nat.zero_le _
  | bool b => exact Nat.zero_le _
  | number n => exact Nat.zero_le _
  | string s => exact Nat.zero_le _
  | @array items _ ih =>
    rw [sorted_array]
    refine Nat.succ_le_succ (nestingItems_le_iff.mpr fun v hv => ?_)
    exact (ih v hv).trans (nesting_le_items (List.mem_map_of_mem hv))
  | @object members hkeys _ ih =>
    rw [sorted_object]
    -- With distinct keys no member gets lost, so each value is among the sorted ones.
    have hbound := (forall_mem_sorted_iff hkeys).mp (nestingMembers_le_iff.mp le_rfl)
    refine Nat.succ_le_succ (nestingMembers_le_iff.mpr fun e he => ?_)
    exact (ih e he).trans (hbound e he)

/-! ### Canonical values -/

/-- Canonical values are proper. -/
theorem Value.Canonical.proper (h : v.Canonical) : v.Proper := by
  induction h with
  | null => exact .null
  | bool b => exact .bool b
  | number h => exact .number h
  | string s => exact .string s
  | array _ ih => exact .array ih
  | object _ _ ih => exact .object ih

/-- **A canonical value is its own sorted form.** -/
theorem Value.Canonical.sorted_eq (h : v.Canonical) : v.sorted = v := by
  induction h with
  | null => rw [Value.sorted.eq_def]
  | bool b => rw [Value.sorted.eq_def]
  | number h => rw [Value.sorted.eq_def]
  | string s => rw [Value.sorted.eq_def]
  | array _ ih =>
    rw [sorted_array, List.map_congr_left ih, List.map_id']
  | object hsorted _ ih =>
    rw [sorted_object, map_sorted_eq_self ih, hsorted.overlay_nil]

theorem Value.Canonical.distinctKeys (h : v.Canonical) : v.DistinctKeys :=
  h.sorted_eq ▸ distinctKeys_sorted v

/-! ### Steps of the readers -/

section

variable {α : Type} {key : Option String} {t : Tree} {a : α} {as : List α} {es : List (String × α)}

/-- Entering a list or an object takes one level of the limit. -/
theorem enter_eq_ok_iff {f : Nat → Decoded α} :
    enter depth f = .ok a ↔ ∃ d, depth = d + 1 ∧ f d = .ok a := by
  cases depth <;> simp [enter]

/-- Items are decoded one after another. -/
theorem Items.decode_item_eq_ok_iff {f : Tree → Decoded α} {rest : Items} :
    (Items.item t rest).decode f = .ok as ↔
      ∃ a as', as = a :: as' ∧ f t = .ok a ∧ rest.decode f = .ok as' := by
  simp only [Items.decode, bind_eq_ok, pure, Except.pure, Except.ok.injEq]
  refine ⟨?_, ?_⟩
  · rintro ⟨a, ha, as, has, rfl⟩
    exact ⟨a, as, rfl, ha, has⟩
  · rintro ⟨a, as, rfl, ha, has⟩
    exact ⟨a, ha, as, has, rfl⟩

/-- Members are decoded one after another, each with a key that is a text. -/
theorem Members.decode_member_eq_ok_iff {f : Tree → Decoded α} {rest : Members} :
    (Members.member key t rest).decode f = .ok es ↔
      ∃ k a es', key = some k ∧ es = (k, a) :: es' ∧ f t = .ok a ∧ rest.decode f = .ok es' := by
  cases key with
  | none => simp [Members.decode, keyText]
  | some k =>
    simp only [Members.decode, keyText, ok_bind, bind_eq_ok, pure, Except.pure, Except.ok.injEq]
    refine ⟨?_, ?_⟩
    · rintro ⟨a, ha, es, hes, rfl⟩
      exact ⟨k, a, es, rfl, rfl, ha, hes⟩
    · rintro ⟨_, a, es, ⟨⟩, rfl, ha, hes⟩
      exact ⟨a, ha, es, hes, rfl⟩

theorem Tree.list_eq_ok_iff {f : Nat → Tree → Decoded α} : t.list depth f = .ok as ↔
    ∃ items d, t = .array items ∧ depth = d + 1 ∧ items.decode (f d) = .ok as := by
  cases t <;> simp [Tree.list, enter_eq_ok_iff]

/-- The members of an object are read one level further in. -/
theorem Tree.members_eq_ok_iff {f : Nat → Tree → Decoded α} : t.members depth f = .ok es ↔
    ∃ ms d, t = .object ms ∧ depth = d + 1 ∧ ms.decode (f d) = .ok es := by
  cases t <;> simp [Tree.members, enter_eq_ok_iff]

/-- A list is read one level further in. -/
theorem Tree.value_array_eq_ok_iff {items : Items} : (Tree.array items).value depth = .ok v ↔
    ∃ depth' vs, depth = depth' + 1 ∧ v = .array vs ∧ items.values depth' = .ok vs := by
  cases depth with
  | zero => simp [Tree.value]
  | succ depth =>
    simp only [Tree.value, map_eq_ok]
    refine ⟨?_, ?_⟩
    · rintro ⟨vs, hvs, rfl⟩
      exact ⟨depth, vs, rfl, rfl, hvs⟩
    · rintro ⟨_, vs, ⟨⟩, rfl, hvs⟩
      exact ⟨vs, hvs, rfl⟩

/-- An object is read one level further in. -/
theorem Tree.value_object_eq_ok_iff {members : Members} :
    (Tree.object members).value depth = .ok v ↔
      ∃ depth' m, depth = depth' + 1 ∧ v = .object m ∧ members.values depth' [] = .ok m := by
  cases depth with
  | zero => simp [Tree.value]
  -- A level of nesting is taken, and the members are read below it.
  | succ depth =>
    simp only [Tree.value, map_eq_ok]
    refine ⟨?_, ?_⟩
    · rintro ⟨m, hm, rfl⟩
      exact ⟨depth, m, rfl, rfl, hm⟩
    · rintro ⟨_, m, ⟨⟩, rfl, hm⟩
      exact ⟨m, hm, rfl⟩

/-- The values of items are read one after another. -/
theorem Items.values_item_eq_ok_iff {rest : Items} {vs : List Value} :
    (Items.item t rest).values depth = .ok vs ↔
      ∃ v vs', vs = v :: vs' ∧ t.value depth = .ok v ∧ rest.values depth = .ok vs' := by
  simp only [Items.values, bind_eq_ok, pure, Except.pure, Except.ok.injEq]
  refine ⟨?_, ?_⟩
  · rintro ⟨v, hv, vs, hvs, rfl⟩
    exact ⟨v, vs, rfl, hv, hvs⟩
  · rintro ⟨v, vs, rfl, hv, hvs⟩
    exact ⟨v, hv, vs, hvs, rfl⟩

/-- A member goes into the table, and the others after it. -/
theorem Members.values_member_eq_ok_iff {rest : Members} {m m' : Keyed Value} :
    (Members.member key t rest).values depth m = .ok m' ↔
      ∃ k v, key = some k ∧ t.value depth = .ok v ∧ rest.values depth (m.insert k v) = .ok m' := by
  cases key <;> simp [Members.values, keyText, bind_eq_ok]

/-- The items of a list are read one by one. -/
theorem decode_itemsTree_eq_ok_iff {f : Tree → Decoded α} :
    (itemsTree items).decode f = .ok as ↔ List.Forall₂ (fun v a => f v.tree = .ok a) items as := by
  induction items generalizing as with
  | nil =>
    rw [itemsTree, Items.decode, List.forall₂_nil_left_iff]
    exact ⟨fun h => (Except.ok.inj h).symm, fun h => congrArg Except.ok h.symm⟩
  | cons v items ih =>
    rw [itemsTree, Items.decode_item_eq_ok_iff]
    -- The first item is decoded as the first value, and the rest as the rest.
    refine ⟨?_, ?_⟩
    · rintro ⟨a, as, rfl, ha, has⟩
      exact .cons ha (ih.mp has)
    · intro h
      cases h with
      | cons ha has => exact ⟨_, _, rfl, ha, ih.mpr has⟩

/-- The members of an object are read one by one. -/
theorem decode_membersTree_eq_ok_iff {f : Tree → Decoded α} :
    (membersTree members).decode f = .ok es ↔
      List.Forall₂ (fun e e' => e'.1 = e.1 ∧ f e.2.tree = .ok e'.2) members es := by
  induction members generalizing es with
  | nil =>
    rw [membersTree, Members.decode, List.forall₂_nil_left_iff]
    exact ⟨fun h => (Except.ok.inj h).symm, fun h => congrArg Except.ok h.symm⟩
  | cons e members ih =>
    obtain ⟨k, v⟩ := e
    rw [membersTree, Members.decode_member_eq_ok_iff]
    refine ⟨?_, ?_⟩
    · rintro ⟨_, a, es, ⟨⟩, rfl, ha, hes⟩
      exact .cons ⟨rfl, ha⟩ (ih.mp hes)
    · intro h
      -- The entry has the key of the member.
      cases h with
      | @cons _ e' _ _ he hes =>
        obtain ⟨_, a⟩ := e'
        obtain ⟨rfl, ha⟩ := he
        exact ⟨_, a, _, rfl, rfl, ha, ih.mpr hes⟩

end

/-! ### Reading values -/

/-- The items of a list are read as the sorted items. -/
theorem values_itemsTree (h : ∀ v ∈ items, v.tree.value depth = .ok v.sorted) :
    (itemsTree items).values depth = .ok (sortedItems items) := by
  induction items with
  | nil => rfl
  | cons v items ih =>
    obtain ⟨hv, hitems⟩ := List.forall_mem_cons.mp h
    rw [itemsTree, Items.values, hv, ok_bind, ih hitems, sortedItems]
    rfl

/-- The members of an object are read into a map as the sorted members. -/
theorem values_membersTree (h : ∀ e ∈ members, e.2.tree.value depth = .ok e.2.sorted)
    (m : Keyed Value) :
    (membersTree members).values depth m = .ok (sortedMembers m members) := by
  induction members generalizing m with
  | nil => rfl
  | cons e members ih =>
    obtain ⟨k, v⟩ := e
    obtain ⟨hv, hmembers⟩ := List.forall_mem_cons.mp h
    rw [membersTree, Members.values, keyText, ok_bind, hv, ok_bind, ih hmembers, sortedMembers]

/-- **A document that writes `v` is read as `v` with its members sorted**, if it does not nest
deeper than is allowed. -/
theorem value_tree (h : v.nesting ≤ depth) : v.tree.value depth = .ok v.sorted := by
  induction v using Value.induction generalizing depth with
  | null => rw [Value.tree, Tree.value, Value.sorted.eq_def]
  | bool b => rw [Value.tree, Tree.value, Value.sorted.eq_def]
  | number n => rw [Value.tree, Tree.value, Value.sorted.eq_def]
  | string s => rw [Value.tree, Tree.value, Value.sorted.eq_def]
  | array items ih =>
    -- The list itself takes a level, and leaves enough for its items.
    obtain ⟨depth, rfl, hle⟩ := depth_of_array h
    have hitems : (itemsTree items).values depth = .ok (sortedItems items) :=
      values_itemsTree fun v hv => ih v hv ((nesting_le_items hv).trans hle)
    rw [Value.tree, Tree.value, hitems, Value.sorted]
    rfl
  | object members ih =>
    obtain ⟨depth, rfl, hle⟩ := depth_of_object h
    have hmembers : (membersTree members).values depth [] = .ok (sortedMembers [] members) :=
      values_membersTree (fun e he => ih e he ((nesting_le_members he).trans hle)) []
    rw [Value.tree, Tree.value, hmembers, Value.sorted]
    rfl

/-- If a list is read, each of its items is. -/
theorem forall_of_values_itemsTree {vs : List Value}
    (h : (itemsTree items).values depth = .ok vs) :
    ∀ v ∈ items, ∃ w, v.tree.value depth = .ok w := by
  induction items generalizing vs with
  | nil => exact fun v hv => absurd hv List.not_mem_nil
  | cons v items ih =>
    obtain ⟨w, vs, rfl, hw, hvs⟩ := Items.values_item_eq_ok_iff.mp h
    exact List.forall_mem_cons.mpr ⟨⟨w, hw⟩, ih hvs⟩

/-- If an object is read, each of its values is. -/
theorem forall_of_values_membersTree {m m' : Keyed Value}
    (h : (membersTree members).values depth m = .ok m') :
    ∀ e ∈ members, ∃ w, e.2.tree.value depth = .ok w := by
  induction members generalizing m with
  | nil => exact fun e he => absurd he List.not_mem_nil
  | cons e members ih =>
    obtain ⟨k, v⟩ := e
    obtain ⟨_, w, -, hw, h⟩ := Members.values_member_eq_ok_iff.mp h
    exact List.forall_mem_cons.mpr ⟨⟨w, hw⟩, ih h⟩

/-- Only what does not nest too deep is read. -/
theorem nesting_of_value_tree {w : Value} (h : v.tree.value depth = .ok w) :
    v.nesting ≤ depth := by
  induction v using Value.induction generalizing depth w with
  | null => exact Nat.zero_le depth
  | bool b => exact Nat.zero_le depth
  | number n => exact Nat.zero_le depth
  | string s => exact Nat.zero_le depth
  | array items ih =>
    rw [Value.tree] at h
    -- Reading has entered the list, so its items had a level less.
    obtain ⟨depth, vs, rfl, -, hvs⟩ := Tree.value_array_eq_ok_iff.mp h
    refine Nat.succ_le_succ (nestingItems_le_iff.mpr fun v hv => ?_)
    obtain ⟨w, hw⟩ := forall_of_values_itemsTree hvs v hv
    exact ih v hv hw
  | object members ih =>
    rw [Value.tree] at h
    obtain ⟨depth, m, rfl, -, hm⟩ := Tree.value_object_eq_ok_iff.mp h
    refine Nat.succ_le_succ (nestingMembers_le_iff.mpr fun e he => ?_)
    obtain ⟨w, hw⟩ := forall_of_values_membersTree hm e he
    exact ih e he hw

/-- A value that is not `null` is read as one that must not be. -/
theorem optional_of_ne {α : Type} (f : Tree → Decoded α) (h : v ≠ .null) :
    v.tree.optional f = (f v.tree).map some := by
  cases v with
  | null => exact absurd rfl h
  | _ => rw [Value.tree]; rfl

/-- What is not null is not left out. -/
theorem optional_of_ne_null {α : Type} {t : Tree} (f : Tree → Decoded α) (h : t ≠ .null) :
    t.optional f = (f t).map some := by
  cases t with
  | null => exact absurd rfl h
  | _ => rfl

/-- An optional value is left out, or is decoded from something that is not null. -/
theorem optional_eq_ok {α : Type} {f : Tree → Decoded α} {t : Tree} {a : Option α}
    (h : t.optional f = .ok a) : a = none ∨ t ≠ .null ∧ ∃ b, f t = .ok b ∧ a = some b := by
  unfold Tree.optional at h
  split at h
  · exact .inl (Except.ok.inj h).symm
  · next hne =>
    obtain ⟨b, hb, rfl⟩ := map_eq_ok.mp h
    exact .inr ⟨hne, b, hb, rfl⟩

/-- A list of values is read as the items of a value are. -/
theorem decode_value_eq : ∀ items : Items, items.decode (Tree.value depth) = items.values depth
  | .closed => by rw [Items.decode, Items.values]
  | .broken f => by rw [Items.decode, Items.values]
  | .item t rest => by rw [Items.decode, Items.values, decode_value_eq rest]

/-- The items of a list are read one by one. -/
theorem decode_values (h : nestingItems items ≤ depth) :
    (itemsTree items).decode (Tree.value depth) = .ok (items.map Value.sorted) := by
  have hitems := values_itemsTree fun v hv => value_tree ((nesting_le_items hv).trans h)
  rw [decode_value_eq, hitems, sortedItems_eq]

/-- A document is decoded from its value to its end. -/
theorem decode_eq_ok_iff {α : Type} {f : Nat → Tree → Decoded α} {d : Document} {a : α} :
    d.decode f = .ok a ↔ f maxDepth d.root = .ok a ∧ d.ended = true := by
  rw [Document.decode, bind_eq_ok]
  -- A value is only accepted at the end of the document.
  cases d.ended with
  | true =>
    refine ⟨?_, fun h => ⟨a, h.1, rfl⟩⟩
    rintro ⟨b, hb, h⟩
    exact ⟨Except.ok.inj h ▸ hb, rfl⟩
  | false =>
    refine ⟨?_, fun h => absurd h.2 (by simp)⟩
    rintro ⟨b, -, h⟩
    exact absurd h (by simp)

/-- The document of a value is decoded from the tree of the value. -/
theorem decode_document {α : Type} (f : Nat → Tree → Decoded α) (v : Value) :
    v.document.decode f = f maxDepth v.tree :=
  bind_pure _

mutual

/-- What is read nests no deeper than was allowed. -/
theorem Tree.nesting_of_value {depth : Nat} : ∀ {t : Tree} {v : Value},
    t.value depth = .ok v → v.nesting ≤ depth
  | .null, v, h | .bool _, v, h | .number (some _), v, h | .string (some _), v, h =>
    Except.ok.inj h ▸ Nat.zero_le depth
  | .number none, v, h | .string none, v, h | .broken _ _, v, h => absurd h (by simp [Tree.value])
  -- A value with parts has taken a level for them.
  | .array items, v, h => by
    obtain ⟨depth, vs, rfl, rfl, hvs⟩ := Tree.value_array_eq_ok_iff.mp h
    exact Nat.succ_le_succ (nestingItems_le_iff.mpr (Items.nesting_of_values hvs))
  | .object members, v, h => by
    obtain ⟨depth, m, rfl, rfl, hm⟩ := Tree.value_object_eq_ok_iff.mp h
    have hle := Members.nesting_of_values (by simp) hm
    exact Nat.succ_le_succ (nestingMembers_le_iff.mpr hle)

/-- No item that is read is deeper than the limit. -/
theorem Items.nesting_of_values {depth : Nat} : ∀ {items : Items} {vs : List Value},
    items.values depth = .ok vs → ∀ v ∈ vs, v.nesting ≤ depth
  | .closed, vs, h => by
    obtain rfl := Except.ok.inj h
    simp
  | .broken _, vs, h => absurd h (by simp [Items.values])
  | .item t rest, vs, h => by
    obtain ⟨v, vs, rfl, hv, hvs⟩ := Items.values_item_eq_ok_iff.mp h
    exact List.forall_mem_cons.mpr ⟨Tree.nesting_of_value hv, Items.nesting_of_values hvs⟩

/-- No member that is read is deeper than the limit. -/
theorem Members.nesting_of_values {depth : Nat} : ∀ {members : Members} {m m' : Keyed Value},
    (∀ e ∈ m, e.2.nesting ≤ depth) → members.values depth m = .ok m' →
    ∀ e ∈ m', e.2.nesting ≤ depth
  | .closed, m, m', hm, h => Except.ok.inj h ▸ hm
  | .broken _, m, m', _, h | .noKey _, m, m', _, h | .badKey _ _, m, m', _, h =>
    absurd h (by simp [Members.values])
  | .member key t rest, m, m', hm, h => by
    obtain ⟨k, v, -, hread, h⟩ := Members.values_member_eq_ok_iff.mp h
    refine Members.nesting_of_values (fun e he => ?_) h
    rcases Keyed.mem_insert he with rfl | he
    · exact Tree.nesting_of_value hread
    · exact hm e he

end

theorem nesting_sorted_le (v : Value) : v.sorted.nesting ≤ v.nesting :=
  Tree.nesting_of_value (value_tree le_rfl)

/-- Sorting members that are not repeated keeps the nesting. -/
theorem nesting_sorted (h : v.DistinctKeys) : v.sorted.nesting = v.nesting :=
  le_antisymm (nesting_sorted_le v) (nesting_le_sorted h)

mutual

/-- **Reading gives canonical values only.** -/
theorem Tree.value_canonical {depth : Nat} : ∀ {t : Tree} {v : Value}, t.Proper →
    t.value depth = .ok v → v.Canonical
  | .null, v, _, h => Except.ok.inj h ▸ .null
  | .bool b, v, _, h => Except.ok.inj h ▸ .bool b
  | .number (some n), v, ht, h => Except.ok.inj h ▸ .number ht
  | .string (some s), v, _, h => Except.ok.inj h ▸ .string s
  -- Numbers out of range, texts that are none and broken trees have no value.
  | .number none, v, _, h | .string none, v, _, h | .broken _ _, v, _, h =>
    absurd h (by simp [Tree.value])
  | .array items, v, ht, h => by
    obtain ⟨depth, vs, rfl, rfl, hvs⟩ := Tree.value_array_eq_ok_iff.mp h
    exact .array (Items.values_canonical ht hvs)
  | .object members, v, ht, h => by
    obtain ⟨depth, m, rfl, rfl, hm⟩ := Tree.value_object_eq_ok_iff.mp h
    obtain ⟨hsorted, hvalues⟩ := Members.values_canonical ht Keyed.sorted_nil (by simp) hm
    exact .object hsorted hvalues

/-- The values of proper items are canonical. -/
theorem Items.values_canonical {depth : Nat} : ∀ {items : Items} {vs : List Value}, items.Proper →
    items.values depth = .ok vs → ∀ v ∈ vs, v.Canonical
  | .closed, vs, _, h => by
    obtain rfl := Except.ok.inj h
    simp
  | .broken _, vs, _, h => absurd h (by simp [Items.values])
  | .item t rest, vs, ht, h => by
    obtain ⟨v, vs, rfl, hv, hvs⟩ := Items.values_item_eq_ok_iff.mp h
    exact List.forall_mem_cons.mpr
      ⟨Tree.value_canonical ht.1 hv, Items.values_canonical ht.2 hvs⟩

/-- The values of proper members are canonical, and come in the order of their keys. -/
theorem Members.values_canonical {depth : Nat} : ∀ {members : Members} {m m' : Keyed Value},
    members.Proper → m.Sorted → (∀ e ∈ m, e.2.Canonical) → members.values depth m = .ok m' →
    m'.Sorted ∧ ∀ e ∈ m', e.2.Canonical
  | .closed, m, m', _, hm, hv, h => Except.ok.inj h ▸ ⟨hm, hv⟩
  | .broken _, m, m', _, _, _, h | .noKey _, m, m', _, _, _, h
  | .badKey _ _, m, m', _, _, _, h => absurd h (by simp [Members.values])
  | .member key t rest, m, m', ht, hm, hv, h => by
    obtain ⟨k, v, -, hread, h⟩ := Members.values_member_eq_ok_iff.mp h
    -- The table so far stays sorted and canonical with one more member.
    refine Members.values_canonical ht.2 hm.insert (fun e he => ?_) h
    rcases Keyed.mem_insert he with rfl | he
    · exact Tree.value_canonical ht.1 hread
    · exact hv e he

end

end CompositeCrd.Json
