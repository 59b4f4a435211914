import CompositeCrd.Proofs.Json.Grammar
import CompositeCrd.Proofs.Schema.Keywords

/-!
# Which values are schema nodes

`acceptable` says which JSON values are read as nodes, and `canon` what is left of such a value
when it has been read and written again: keywords that are unset in effect are dropped at every
node, `null` among the properties becomes an empty node, and everything else stays. Both are
plain recursions over the value that know the keys of a node and nothing else of how nodes are
read.

The reader is compared with them slot by slot. `Agrees x b good` says that an outcome `x` follows
the verdict `b`; `Role.Agreement` is the induction hypothesis for a value, one part for each of
the ways in which a value can be read.
-/

namespace CompositeCrd.Schema

open Json

/-- What a key is for in a node. -/
inductive Role where
  | text
  | properties
  | required
  | items
  | additional
  | enum
  | default
  | nullable
  | preserve
  | other
deriving DecidableEq

/-- The role of a key. -/
def roleOf : String → Role
  | "type" => .text
  | "description" => .text
  | "format" => .text
  | "properties" => .properties
  | "required" => .required
  | "items" => .items
  | "additionalProperties" => .additional
  | "enum" => .enum
  | "default" => .default
  | "nullable" => .nullable
  | "x-kubernetes-preserve-unknown-fields" => .preserve
  | _ => .other

/-- Whether a value is a text. -/
def isText : Value → Bool
  | .string _ => true
  | _ => false

mutual

/-- Whether a value is acceptable as a node. -/
def acceptable : Value → Bool
  | .object ms => acceptableMembers ms
  | _ => false

/-- Whether the members are acceptable as those of a node. -/
def acceptableMembers : List (String × Value) → Bool
  | [] => true
  | (k, v) :: ms => fits (roleOf k) v && acceptableMembers ms

/-- Whether a value is acceptable in a role. -/
def fits : Role → Value → Bool
  -- What has no slot is kept as it is, and so is a default.
  | .other, _ => true
  | .default, _ => true
  | _, .null => true
  | .text, .string _ => true
  | .properties, .object es => acceptableEntries es
  | .required, .array vs => vs.all isText
  | .items, .object ms => acceptableMembers ms
  | .items, .array vs => acceptableItems vs
  | .additional, .bool _ => true
  | .additional, .object ms => acceptableMembers ms
  | .enum, .array _ => true
  | .nullable, .bool _ => true
  | .preserve, .bool _ => true
  | _, _ => false

/-- Whether the members are acceptable as the entries of a property tree. -/
def acceptableEntries : List (String × Value) → Bool
  | [] => true
  | (_, .null) :: es => acceptableEntries es
  | (_, v) :: es => acceptable v && acceptableEntries es

/-- Whether all items are acceptable as nodes. -/
def acceptableItems : List Value → Bool
  | [] => true
  | v :: vs => acceptable v && acceptableItems vs

end

mutual

/-- What is left of a node that is read and written. -/
def canon : Value → Value
  | .object ms => .object (canonMembers ms)
  | v => v

/-- The members that are left of a node. -/
def canonMembers : List (String × Value) → List (String × Value)
  | [] => []
  | (k, v) :: ms =>
    match canonIn (roleOf k) v with
    | some w => (k, w) :: canonMembers ms
    | none => canonMembers ms

/-- What is left of a value in a role, if anything is. -/
def canonIn : Role → Value → Option Value
  | .other, v => some v
  -- A keyword that is `null` is absent.
  | _, .null => none
  | .properties, .object [] => none
  | .properties, .object es => some (.object (canonEntries es))
  | .required, .array [] => none
  | .items, .object ms => some (.object (canonMembers ms))
  | .items, .array vs => some (.array (canonItems vs))
  | .additional, .object ms => some (.object (canonMembers ms))
  | .enum, .array [] => none
  | .nullable, .bool false => none
  | _, v => some v

/-- What is left of the entries of a property tree: all of them. -/
def canonEntries : List (String × Value) → List (String × Value)
  | [] => []
  | (k, .null) :: es => (k, .object []) :: canonEntries es
  | (k, v) :: es => (k, canon v) :: canonEntries es

/-- What is left of the nodes of a list. -/
def canonItems : List Value → List Value
  | [] => []
  | v :: vs => canon v :: canonItems vs

end

variable {α β : Type} {k : String} {v : Value} {vs : List Value} {ms es : List (String × Value)}
  {depth : Nat} {n : Schema}

/-! ### Roles -/

/-- What is no keyword has no role. -/
theorem roleOf_of_unnamed (h : Spelled.ofText? k = (none : Option Keyword)) :
    roleOf k = .other := by
  unfold roleOf
  split
  case h_12 => rfl
  all_goals exact absurd h (by decide)

/-- Any value may stand under a key that is no keyword, and stays. -/
theorem fits_other (v : Value) : fits .other v = true := by
  cases v <;> rfl

theorem canonIn_other (v : Value) : canonIn .other v = some v := by
  cases v <;> rfl

/-- Members are acceptable if each of them fits its role. -/
theorem acceptableMembers_iff :
    acceptableMembers ms = true ↔ ∀ e ∈ ms, fits (roleOf e.1) e.2 = true := by
  induction ms with
  | nil => simp [acceptableMembers]
  | cons e ms ih =>
    obtain ⟨k, v⟩ := e
    rw [acceptableMembers, Bool.and_eq_true, ih, List.forall_mem_cons]

/-- Members are normalized one by one, and those that say nothing are left out. -/
theorem canonMembers_eq (ms : List (String × Value)) :
    canonMembers ms = ms.filterMap fun e => (canonIn (roleOf e.1) e.2).map (e.1, ·) := by
  induction ms with
  | nil => rfl
  | cons e ms ih =>
    obtain ⟨k, v⟩ := e
    rw [canonMembers, List.filterMap_cons, ← ih]
    cases canonIn (roleOf k) v <;> rfl

/-- No key is added. -/
theorem keys_canonMembers (ms : List (String × Value)) :
    List.Sublist (Keyed.keys (canonMembers ms)) (Keyed.keys ms) := by
  induction ms with
  | nil => exact .slnil
  | cons e ms ih =>
    obtain ⟨k, v⟩ := e
    rw [canonMembers]
    split
    · exact ih.cons_cons k
    · exact ih.cons k

/-- What is left under a key. -/
theorem find?_canonMembers (h : (Keyed.keys ms).Nodup) :
    Keyed.find? k (canonMembers ms) = (Keyed.find? k ms).bind (canonIn (roleOf k)) := by
  induction ms with
  | nil => rfl
  | cons e ms ih =>
    obtain ⟨k', v⟩ := e
    rw [Keyed.keys_cons, List.nodup_cons] at h
    rw [canonMembers, Keyed.find?_cons]
    by_cases hk : k' = k
    · subst hk
      rw [if_pos rfl, Option.bind_some]
      cases hv : canonIn (roleOf k') v with
      | some w => exact (Keyed.find?_cons ..).trans (if_pos rfl)
      | none =>
        -- The key is gone, and it does not occur again.
        refine (ih h.2).trans ?_
        rw [Keyed.find?_eq_none_iff.mpr h.1]
        rfl
    · rw [if_neg hk, ← ih h.2]
      cases canonIn (roleOf k') v with
      | some w => exact (Keyed.find?_cons ..).trans (if_neg hk)
      | none => rfl

/-- What is left of an entry of a property tree. -/
def canonEntry : Value → Value
  | .null => .object []
  | v => canon v

/-- The entries of a table are normalized one by one. -/
theorem canonEntries_eq (es : List (String × Value)) :
    canonEntries es = es.map fun e => (e.1, canonEntry e.2) := by
  induction es with
  | nil => rfl
  | cons e es ih =>
    obtain ⟨k, v⟩ := e
    rw [List.map_cons, ← ih]
    cases v <;> rfl

/-- The items of a list are normalized one by one. -/
theorem canonItems_eq (vs : List Value) : canonItems vs = vs.map canon := by
  induction vs with
  | nil => rfl
  | cons v vs ih => rw [canonItems, ih, List.map_cons]

/-- Whether a value is acceptable as an entry of a property tree. -/
def acceptableEntry : Value → Bool
  | .null => true
  | v => acceptable v

/-- A table is acceptable if each of its entries is. -/
theorem acceptableEntries_iff :
    acceptableEntries es = true ↔ ∀ e ∈ es, acceptableEntry e.2 = true := by
  induction es with
  | nil => simp [acceptableEntries]
  | cons e es ih =>
    obtain ⟨k, v⟩ := e
    rw [List.forall_mem_cons, ← ih, ← Bool.and_eq_true]
    cases v <;> rfl

/-- A list of nodes is acceptable if each of its items is. -/
theorem acceptableItems_iff : acceptableItems vs = true ↔ ∀ v ∈ vs, acceptable v = true := by
  induction vs with
  | nil => simp [acceptableItems]
  | cons v vs ih => rw [acceptableItems, Bool.and_eq_true, ih, List.forall_mem_cons]

/-! ### Verdicts -/

/-- The outcome `x` follows the verdict `b`, and its value is good. -/
structure Agrees (x : Decoded α) (b : Bool) (good : α → Prop) : Prop where
  ok_iff : (∃ a, x = .ok a) ↔ b = true
  good : ∀ a, x = .ok a → good a

namespace Agrees

variable {x y : Decoded α} {b : Bool} {good : α → Prop}

/-- What is read as it should be agrees with what is acceptable. -/
theorem ok {a : α} (h : good a) : Agrees (.ok a) true good where
  ok_iff := ⟨fun _ => rfl, fun _ => ⟨a, rfl⟩⟩
  good := by
    rintro _ ⟨⟩
    exact h

/-- What is not read agrees with what is not acceptable. -/
theorem error (e : DecodeError) : Agrees (.error e) false good where
  ok_iff := ⟨fun ⟨_, h⟩ => absurd h (by simp), fun h => absurd h (by simp)⟩
  good := by
    rintro _ ⟨⟩

theorem imp {good' : α → Prop} (h : Agrees x b good) (himp : ∀ a, good a → good' a) :
    Agrees x b good' :=
  ⟨h.ok_iff, fun a ha => himp a (h.good a ha)⟩

/-- Reading agrees behind a function if it does with what the function gives. -/
theorem map {f : α → β} {good : β → Prop} (h : Agrees x b fun a => good (f a)) :
    Agrees (x.map f) b good where
  ok_iff := by
    rw [← h.ok_iff]
    refine ⟨?_, ?_⟩
    · -- Changing the result does not change whether there is one.
      rintro ⟨_, hx⟩
      obtain ⟨a, ha, -⟩ := map_eq_ok.mp hx
      exact ⟨a, ha⟩
    · rintro ⟨a, ha⟩
      exact ⟨f a, map_eq_ok.mpr ⟨a, ha, rfl⟩⟩
  good := by
    intro _ hx
    obtain ⟨a, ha, rfl⟩ := map_eq_ok.mp hx
    exact h.good a ha

/-- What is not read is not acceptable. -/
theorem eq_false {e : DecodeError} (h : Agrees (.error e) b good) : b = false := by
  rw [Bool.eq_false_iff]
  intro hb
  obtain ⟨a, ha⟩ := h.ok_iff.mpr hb
  exact absurd ha (by simp)

/-- Of two shapes, the second does not fit. -/
theorem or_error (h : Agrees x b good) (e : DecodeError) :
    Agrees (orNoAlternative [x, .error e]) b good := by
  cases x with
  | ok a => exact h
  | error f => exact h.eq_false ▸ .error _

/-- Of two shapes, the first does not fit. -/
theorem error_or (h : Agrees x b good) (e : DecodeError) :
    Agrees (orNoAlternative [.error e, x]) b good := by
  cases x with
  | ok a => exact h
  | error f => exact h.eq_false ▸ .error _

end Agrees

/-! ### The slots of a node -/

/-- The two values are equal up to the order of members, if there are any. -/
def Alike (v w : Option Value) : Prop :=
  v.map Value.sorted = w.map Value.sorted

/-- **What reading a value as a node, as a list of nodes and as a property tree comes to.** -/
structure Agreement (v : Value) : Prop where
  node : ∀ ⦃depth⦄, v.nesting ≤ depth →
    Agrees (ofTree depth v.tree) (acceptable v) fun s => s.toValue.sorted = (canon v).sorted
  list : ∀ ⦃vs⦄, v = .array vs → ∀ ⦃depth⦄, v.nesting ≤ depth →
    Agrees (listOfTree depth v.tree) (acceptableItems vs) fun ss =>
      (listValues ss).map Value.sorted = (canonItems vs).map Value.sorted
  tree : ∀ ⦃es⦄, v = .object es → ∀ ⦃depth⦄, v.nesting ≤ depth →
    Agrees (tableOfTree depth v.tree) (acceptableEntries es) fun m =>
      (Value.object (tableMembers m)).sorted = (Value.object (canonEntries es)).sorted

/-- An optional text is read from texts and from null. -/
theorem text_agrees (v : Value) : Agrees (v.tree.optional Tree.text) (fits .text v) fun a =>
    Alike (a.map .string) (canonIn .text v) := by
  cases v with
  | null => exact .ok rfl
  | string s => exact .ok rfl
  | _ => exact .error _

/-- An optional flag is read from flags and from null. -/
theorem flag_agrees (v : Value) : Agrees (v.tree.optional Tree.flag) (fits .preserve v) fun a =>
    Alike (a.map .bool) (canonIn .preserve v) := by
  cases v with
  | null => exact .ok rfl
  | bool b => exact .ok rfl
  | _ => exact .error _

/-- The flag for null is written only if it is set. -/
theorem nullable_agrees (v : Value) :
    Agrees ((v.tree.optional Tree.flag).map (·.getD false)) (fits .nullable v) fun a =>
      Alike (Keyword.nullable.write a) (canonIn .nullable v) := by
  refine .map ?_
  cases v with
  | null => exact .ok rfl
  | bool b => cases b <;> exact .ok rfl
  | _ => exact .error _

/-- Every value may be a default, and null is none. -/
theorem default_agrees (h : v.nesting ≤ depth) :
    Agrees (v.tree.optional (Tree.value depth)) (fits .default v) fun a =>
      Alike a (canonIn .default v) := by
  by_cases hv : v = .null
  · subst hv
    exact .ok rfl
  · rw [optional_of_ne _ hv, value_tree h]
    cases v with
    | null => exact absurd rfl hv
    | _ => exact .ok (congrArg some (sorted_sorted _))

/-- A list of texts is read from texts only. -/
theorem texts_agree (vs : List Value) : Agrees ((itemsTree vs).decode Tree.text) (vs.all isText)
    fun names => names.map Value.string = vs := by
  induction vs with
  | nil => exact .ok rfl
  | cons v vs ih =>
    rw [itemsTree, Items.decode]
    cases v with
    -- A text is taken as a name, anything else refuses the list.
    | string s =>
      change Agrees (Functor.map (s :: ·) ((itemsTree vs).decode Tree.text)) _ _
      exact .map (ih.imp fun names h => by rw [List.map_cons, h])
    | _ => exact .error _

/-- The required names are read from a list of texts, and left out if there are none. -/
theorem required_agrees (h : v.nesting ≤ depth) :
    Agrees (Keyword.required.read depth v.tree (readings v.tree)) (fits .required v) fun a =>
      Alike (Keyword.required.write a) (canonIn .required v) := by
  refine .map ?_
  cases v with
  | null => exact .ok rfl
  | array vs =>
    -- Names are read from a list, and written if there are some.
    obtain ⟨depth, rfl, -⟩ := depth_of_array h
    refine .map ((texts_agree vs).imp fun names hnames => ?_)
    change Alike (unlessEmpty (names.map Value.string)) _
    rw [hnames]
    cases vs <;> rfl
  | _ => exact .error _

/-- The values of an enumeration are read from a list, and left out if there are none. -/
theorem enum_agrees (h : v.nesting ≤ depth) :
    Agrees (Keyword.enumValues.read depth v.tree (readings v.tree)) (fits .enum v) fun a =>
      Alike (Keyword.enumValues.write a) (canonIn .enum v) := by
  refine .map ?_
  cases v with
  | null => exact .ok rfl
  | array vs =>
    obtain ⟨depth, rfl, hle⟩ := depth_of_array h
    have hread : (Value.array vs).tree.list (depth + 1) Tree.value = .ok (vs.map Value.sorted) :=
      decode_values hle
    rw [optional_of_ne _ (by simp), hread]
    cases vs with
    | nil => exact .ok rfl
    | cons v vs =>
      refine .ok (congrArg some ?_)
      -- The values are sorted already.
      rw [Option.getD_some, sorted_array, sorted_array, List.map_map]
      exact congrArg Value.array (List.map_congr_left fun v _ => sorted_sorted v)
  | _ => exact .error _

/-- The properties are read from a table of nodes, and left out if there are none. -/
theorem properties_agrees (hv : Agreement v) (h : v.nesting ≤ depth) :
    Agrees (Keyword.properties.read depth v.tree (readings v.tree)) (fits .properties v) fun a =>
      Alike (Keyword.properties.write a) (canonIn .properties v) := by
  refine .map ?_
  cases v with
  | null => exact .ok rfl
  | object es =>
    rw [optional_of_ne _ (by simp)]
    refine .map ((hv.tree rfl h).imp fun m hm => ?_)
    change Alike (propertiesValue m) _
    -- The table is empty exactly when there are no entries.
    cases m with
    | nil =>
      obtain rfl : es = [] := by
        have hnil := sorted_object_eq_empty hm.symm
        rwa [canonEntries_eq, List.map_eq_nil_iff] at hnil
      rfl
    | cons e m =>
      cases es with
      | nil => exact absurd (sorted_object_eq_empty hm) (by simp [tableMembers])
      | cons e' es => exact congrArg some hm
  | _ => exact .error _

/-- The rule for items is read from a node, or from a list of them. -/
theorem items_agrees (hv : Agreement v) (h : v.nesting ≤ depth) :
    Agrees (Keyword.items.read depth v.tree (readings v.tree)) (fits .items v) fun a =>
      Alike (Keyword.items.write a) (canonIn .items v) := by
  by_cases hnull : v = .null
  · subst hnull
    exact .ok rfl
  -- The value is read as plain JSON first, which does not fail.
  change Agrees (v.tree.optional fun t => itemsOf depth t (readings v.tree)) _ _
  rw [optional_of_ne _ hnull, itemsOf, value_tree h, ok_bind]
  refine .map ?_
  cases v with
  | null => exact absurd rfl hnull
  -- An object is no list, and a list is no node.
  | object ms => exact ((hv.node h).imp fun s hs => congrArg some hs).map.or_error _
  | array vs =>
    have hlist : Agrees ((listOfTree depth (Value.array vs).tree).map ItemRule.positional)
        (acceptableItems vs) fun a =>
          Alike (Keyword.items.write (some a)) (some (.array (canonItems vs))) := by
      refine .map ((hv.list rfl h).imp fun ss hss => congrArg some ?_)
      rw [sorted_array, sorted_array, hss]
    exact hlist.error_or _
  | _ => exact .error _

/-- The rule for additional properties is read from a flag or from a node. -/
theorem additional_agrees (hv : Agreement v) (h : v.nesting ≤ depth) :
    Agrees (Keyword.additionalProperties.read depth v.tree (readings v.tree)) (fits .additional v)
      fun a => Alike (Keyword.additionalProperties.write a) (canonIn .additional v) := by
  by_cases hnull : v = .null
  · subst hnull
    exact .ok rfl
  change Agrees (v.tree.optional fun t => additionalOf depth t (readings v.tree)) _ _
  rw [optional_of_ne _ hnull, additionalOf, value_tree h, ok_bind]
  refine .map ?_
  cases v with
  | null => exact absurd rfl hnull
  | bool b => exact .ok rfl
  -- A truth value fits the first shape, and an object the second.
  | object ms => exact ((hv.node h).imp fun s hs => congrArg some hs).map.error_or _
  | _ => exact .error _

/-- **Every slot follows the verdict on its role.** -/
theorem slot_agrees (hv : Agreement v) (h : v.nesting ≤ depth) (kw : Keyword) :
    Agrees (kw.read depth v.tree (readings v.tree)) (fits (roleOf (Spelled.spell kw)) v) fun a =>
      Alike (kw.write a) (canonIn (roleOf (Spelled.spell kw)) v) := by
  cases kw with
  | type | description | format => exact text_agrees v
  | properties => exact properties_agrees hv h
  | required => exact required_agrees h
  | items => exact items_agrees hv h
  | additionalProperties => exact additional_agrees hv h
  | enumValues => exact enum_agrees h
  | default => exact default_agrees h
  | nullable => exact nullable_agrees v
  | preserveUnknownFields => exact flag_agrees v

/-! ### Nodes, lists and tables -/

variable (hms : ∀ e ∈ ms, Agreement e.2) (h : nestingMembers ms ≤ depth)
include hms h

/-- The slot of a keyword is read from the member that names it. -/
theorem agrees_of_find? {kw : Keyword} (hv : Keyed.find? (Spelled.spell kw) ms = some v) :
    Agrees (kw.read depth v.tree (readings v.tree)) (fits (roleOf (Spelled.spell kw)) v) fun a =>
      Alike (kw.write a) (canonIn (roleOf (Spelled.spell kw)) v) := by
  have hmem := Keyed.mem_of_find? hv
  exact slot_agrees (hms _ hmem) ((nesting_le_members hmem).trans h) kw

/-- Every slot can be read from acceptable members. -/
theorem exists_readsSlot (hfits : acceptableMembers ms = true) (kw : Keyword) :
    ∃ s, ReadsSlot depth {} s kw (Keyed.find? (Spelled.spell kw) ms) := by
  cases hfind : Keyed.find? (Spelled.spell kw) ms with
  | none => exact ⟨{}, rfl⟩
  | some v =>
    have hfit := acceptableMembers_iff.mp hfits _ (Keyed.mem_of_find? hfind)
    obtain ⟨a, ha⟩ := (agrees_of_find? hms h hfind).ok_iff.mpr hfit
    refine ⟨({} : Schema).put kw a, ?_⟩
    rw [ReadsSlot, get_put]
    exact ha

variable (hnodup : (Keyed.keys ms).Nodup)
include hnodup

/-- A node is read from an object exactly when its members are acceptable. -/
theorem exists_ofMembers_iff :
    (∃ n, ofMembers depth {} [] (membersTree ms) = .ok n) ↔ acceptableMembers ms = true := by
  simp only [ofMembers_eq_ok_iff h]
  refine ⟨?_, ?_⟩
  · rintro ⟨n, -, -, hslots, -⟩
    rw [acceptableMembers_iff]
    rintro ⟨k, v⟩ he
    cases hk : (Spelled.ofText? k : Option Keyword) with
    | none =>
      rw [roleOf_of_unnamed hk]
      exact fits_other v
    | some kw =>
      obtain rfl := Keyword.ofText?_eq_some_iff.mp hk
      have hfind := Keyed.find?_of_mem hnodup he
      have hread := hslots kw
      rw [hfind] at hread
      exact (agrees_of_find? hms h hfind).ok_iff.mp ⟨_, hread⟩
  · intro hfits
    -- The slots are read one by one, and there is a node with all of them.
    choose s hs using exists_readsSlot hms h hfits
    obtain ⟨n, hget, hextra⟩ :=
      exists_get (fun kw => (s kw).get kw) (sortedMembers [] (unnamed ms))
    refine ⟨n, by simp, nodup_named hnodup, fun kw => ?_, hextra⟩
    have hslot := hs kw
    unfold ReadsSlot at hslot ⊢
    rwa [hget]

omit hnodup in
/-- A slot that is read is written as what is left of its member. -/
theorem slot_alike {kw : Keyword}
    (hslot : ReadsSlot depth {} n kw (Keyed.find? (Spelled.spell kw) ms)) :
    Alike (kw.write (n.get kw))
      ((Keyed.find? (Spelled.spell kw) ms).bind (canonIn (roleOf (Spelled.spell kw)))) := by
  cases hfind : Keyed.find? (Spelled.spell kw) ms with
  | none =>
    rw [hfind] at hslot
    -- A keyword that is not there is blank, and a blank slot is not written.
    have hblank : n.get kw = ({} : Schema).get kw := hslot
    rw [hblank]
    cases kw <;> rfl
  | some v =>
    rw [hfind] at hslot
    exact (agrees_of_find? hms h hfind).good _ hslot

/-- A node that is read from an object is written as what is left of it. -/
theorem sorted_toValue_of_ofMembers (hn : ofMembers depth {} [] (membersTree ms) = .ok n) :
    n.toValue.sorted = (Value.object (canonMembers ms)).sorted := by
  obtain ⟨-, -, hslots, hextra⟩ := (ofMembers_eq_ok_iff h).mp hn
  have hextra : n.extra = sortedMembers [] (unnamed ms) := hextra
  have hunnamed : Unnamed n.extra := hextra ▸ unnamed_sortedMembers ms
  have hnodup' : (Keyed.keys n.extra).Nodup := hextra ▸ nodup_keys_sortedMembers _
  have hcanon : (Keyed.keys (canonMembers ms)).Nodup := hnodup.sublist (keys_canonMembers ms)
  rw [toValue_eq, sorted_object, sorted_object]
  -- Two sorted tables are compared look-up by look-up.
  refine congrArg Value.object (Keyed.sorted_nil.overlay.ext Keyed.sorted_nil.overlay fun k => ?_)
  rw [find?_sorted (nodup_keys_members hunnamed hnodup'), find?_sorted hcanon,
    find?_canonMembers hnodup]
  cases hk : (Spelled.ofText? k : Option Keyword) with
  | none =>
    -- The other members are kept as they are, and sorted.
    rw [find?_members hk, hextra, find?_sortedMembers_unnamed hnodup hk, roleOf_of_unnamed hk]
    cases Keyed.find? k ms with
    | none => rfl
    | some v =>
      rw [Option.bind_some, canonIn_other]
      exact congrArg some (sorted_sorted v)
  | some kw =>
    obtain rfl := Keyword.ofText?_eq_some_iff.mp hk
    rw [find?_spell_members hunnamed]
    exact slot_alike hms h (hslots kw)

omit hms h hnodup

/-- **An object is read as a node exactly when it is acceptable**, and written as its normal form.
-/
theorem node_agrees (hms : ∀ e ∈ ms, Agreement e.2) (hnodup : (Keyed.keys ms).Nodup)
    (h : (Value.object ms).nesting ≤ depth) :
    Agrees (ofTree depth (Value.object ms).tree) (acceptable (.object ms)) fun s =>
      s.toValue.sorted = (canon (.object ms)).sorted := by
  obtain ⟨depth, rfl, hdepth⟩ := depth_of_object h
  exact ⟨exists_ofMembers_iff hms hdepth hnodup,
    fun n hn => sorted_toValue_of_ofMembers hms hdepth hnodup hn⟩

/-- A list is read as nodes exactly when all of its items are acceptable. -/
theorem list_agrees (hvs : ∀ v ∈ vs, Agreement v) (h : (Value.array vs).nesting ≤ depth) :
    Agrees (listOfTree depth (Value.array vs).tree) (acceptableItems vs) fun ss =>
      (listValues ss).map Value.sorted = (canonItems vs).map Value.sorted := by
  obtain ⟨depth, rfl, hdepth⟩ := depth_of_array h
  have hnode : ∀ v ∈ vs, Agrees (ofTree depth v.tree) (acceptable v) fun s =>
      s.toValue.sorted = (canon v).sorted :=
    fun v hv => (hvs v hv).node ((nesting_le_items hv).trans hdepth)
  change Agrees (listOfItems depth (itemsTree vs)) _ _
  -- Nodes are read one by one, so reading fails with the first item that does.
  refine ⟨?_, ?_⟩
  · simp only [listOfItems_eq_ok_iff, exists_forall₂_iff, acceptableItems_iff]
    exact forall₂_congr fun v hv => (hnode v hv).ok_iff
  · intro ss hss
    rw [listOfItems_eq_ok_iff] at hss
    rw [listValues_eq, canonItems_eq, List.map_map, List.map_map]
    exact map_eq_of_forall₂ hss fun v hv s hs => (hnode v hv).good s hs

/-- An entry is read exactly when it is null or acceptable. -/
theorem entry_agrees (hv : Agreement v) (h : v.nesting ≤ depth) :
    Agrees (readEntry depth v.tree) (acceptableEntry v) fun s =>
      s.toValue.sorted = (canonEntry v).sorted := by
  cases v with
  | null => exact .ok rfl
  | _ => exact hv.node h

/-- An object is read as a table exactly when all of its entries are acceptable. -/
theorem table_agrees (hes : ∀ e ∈ es, Agreement e.2) (h : (Value.object es).nesting ≤ depth) :
    Agrees (tableOfTree depth (Value.object es).tree) (acceptableEntries es) fun m =>
      (Value.object (tableMembers m)).sorted = (Value.object (canonEntries es)).sorted := by
  obtain ⟨depth, rfl, hdepth⟩ := depth_of_object h
  have hentry : ∀ e ∈ es, Agrees (readEntry depth e.2.tree) (acceptableEntry e.2) fun s =>
      s.toValue.sorted = (canonEntry e.2).sorted :=
    fun e he => entry_agrees (hes e he) ((nesting_le_members he).trans hdepth)
  change Agrees (tableOfMembers depth [] (membersTree es)) _ _
  refine ⟨?_, ?_⟩
  · rw [acceptableEntries_iff]
    refine ⟨?_, ?_⟩
    · rintro ⟨m, hm⟩ e he
      obtain ⟨layer, hlayer, -⟩ := tableOfMembers_eq_ok_iff.mp hm
      obtain ⟨e', -, he'⟩ := exists_forall₂_iff.mp ⟨layer, hlayer⟩ e he
      exact (hentry e he).ok_iff.mp ⟨e'.2, he'⟩
    · intro hall
      -- Every entry is read, and the entries make a table.
      have hread : ∀ e ∈ es, ∃ e' : String × Schema, e'.1 = e.1
          ∧ readEntry depth e.2.tree = .ok e'.2 := by
        intro e he
        obtain ⟨s, hs⟩ := (hentry e he).ok_iff.mpr (hall e he)
        exact ⟨(e.1, s), rfl, hs⟩
      obtain ⟨layer, hlayer⟩ := exists_forall₂_iff.mpr hread
      exact ⟨_, tableOfMembers_eq_ok_iff.mpr ⟨layer, hlayer, rfl⟩⟩
  · intro m hm
    obtain ⟨layer, hlayer, rfl⟩ := tableOfMembers_eq_ok_iff.mp hm
    -- What is written from the table is the written layer, laid out as a table.
    have hwritten : layer.map (fun e => (e.1, e.2.toValue.sorted))
        = es.map fun e => (e.1, (canonEntry e.2).sorted) := by
      refine map_eq_of_forall₂ hlayer fun e he e' hread => ?_
      rw [hread.1, (hentry e he).good e'.2 hread.2]
    rw [sorted_object, sorted_object, tableMembers_eq, canonEntries_eq, List.map_map, List.map_map]
    change Value.object (Keyed.overlay [] ((Keyed.overlay [] layer).map
        fun e => (e.1, e.2.toValue.sorted))) = .object (Keyed.overlay []
          (es.map fun e => (e.1, (canonEntry e.2).sorted)))
    rw [Keyed.map_overlay fun s : Schema => s.toValue.sorted, hwritten]
    exact congrArg Value.object Keyed.sorted_nil.overlay.overlay_nil

/-- **Reading follows the verdict** on every value without repeated keys. -/
theorem agreement (hv : v.DistinctKeys) : Agreement v := by
  induction hv with
  | object hnodup _ ih =>
    -- An object may be a node or a table, never a list.
    refine ⟨fun _ h => node_agrees ih hnodup h, ?_, ?_⟩
    · rintro vs ⟨⟩
    · rintro es ⟨⟩ depth h
      exact table_agrees ih h
  | array _ ih =>
    -- A list may be a list of nodes only.
    refine ⟨fun _ _ => .error _, ?_, ?_⟩
    · rintro vs ⟨⟩ depth h
      exact list_agrees ih h
    · rintro es ⟨⟩
  | null | bool | number | string =>
    refine ⟨fun _ _ => .error _, ?_, ?_⟩
    · rintro vs ⟨⟩
    · rintro es ⟨⟩

/-- **Decoding accepts exactly the acceptable values, and writing gives what is left of them**, up
to the order of members. This holds of every text of the value. -/
theorem read_iff_acceptable {s r : List Symbol} (hkeys : v.DistinctKeys)
    (hnesting : v.nesting ≤ maxDepth) (htext : v.Spells s r) (hend : Document.skipSpace r = []) :
    ((∃ n, Schema.codec.read (Document.ofSymbols s) = .ok n) ↔ acceptable v = true)
      ∧ ∀ n, Schema.codec.read (Document.ofSymbols s) = .ok n →
          n.toValue.sorted = (canon v).sorted := by
  have hread : Schema.codec.read (Document.ofSymbols s) = ofTree maxDepth v.tree := by
    rw [ofSymbols_of_spells htext hend]
    -- The document ends behind the value, so nothing but the value decides.
    change (ofTree maxDepth v.tree >>= fun a => pure a) = _
    exact bind_pure _
  rw [hread]
  have h := (agreement hkeys).node hnesting
  exact ⟨h.ok_iff, h.good⟩

/-- A node with keywords that are unset in effect, at two levels. -/
def tidiedSample : Value :=
  .object [("type", .string "object"), ("format", .null), ("nullable", .bool false),
    ("properties", .object [("size", .null), ("mode", .object [("enum", .array [.null])])]),
    ("default", .null), ("x-note", .null)]

/-- A sample with an empty list, a null entry and a keyword without a name is read, and tidied up.
-/
theorem tidiedSample_accepted :
    ∃ n, Schema.codec.read (Document.ofSymbols (symbols (tidiedSample.write []))) = .ok n
      ∧ n.toValue.sorted = .object [
        ("properties", .object [("mode", .object [("enum", .array [.null])]),
          ("size", .object [])]),
        ("type", .string "object"), ("x-note", .null)] := by
  have hproper : tidiedSample.Proper := by
    simp [tidiedSample]
  have hkeys : tidiedSample.DistinctKeys := by
    simp [tidiedSample, Keyed.keys]
  have h := read_iff_acceptable hkeys (by decide) hproper.spells_write rfl
  -- The verdict is computed, and tells that there is a node.
  obtain ⟨n, hn⟩ := h.1.mpr (by decide)
  exact ⟨n, hn, (h.2 n hn).trans rfl⟩

end CompositeCrd.Schema
