import CompositeCrd.Proofs.Json.Value
import CompositeCrd.Schema.Json

/-!
# Keywords as slots of a node

A node is a row of slots, one for each keyword, and the other keywords beside them. `Schema.get`
and `Schema.put` look at one slot; `Keyword.write` and `Keyword.read` are its two directions, and
both the writer and the reader of nodes are made from them:

* `toValue_eq`: a node is written as the members of its slots in order, then the others,
* `set_eq`: setting a keyword reads one slot and leaves the rest of the node alone,
* `ofMembers_member_cases`: a member of an object goes to the others or fills a slot,
* `ofMembers_eq_ok_iff`: a node is read from an object exactly when no keyword is repeated and
  each slot is read from the member of its keyword, wherever that member stands. The slot of an
  absent keyword stays as it was.

So statements about nodes are proved slot by slot.
-/

namespace CompositeCrd

open Json

/-! ### The names of keywords -/

namespace Keyword

theorem ofText?_spell (kw : Keyword) : Spelled.ofText? (Spelled.spell kw) = some kw := by
  cases kw <;> decide

/-- Only its own spelling is a text of a keyword. -/
theorem ofText?_eq_some_iff {k : String} {kw : Keyword} :
    Spelled.ofText? k = some kw ↔ k = Spelled.spell kw := by
  refine ⟨?_, ?_⟩
  · intro h
    have heq := List.find?_some h
    exact (beq_iff_eq.mp heq).symm
  · rintro rfl
    exact ofText?_spell kw

theorem spell_injective {kw kw' : Keyword} (h : Spelled.spell kw = Spelled.spell kw') :
    kw = kw' :=
  Option.some.inj ((ofText?_spell kw).symm.trans ((congrArg _ h).trans (ofText?_spell kw')))

theorem mem_all (kw : Keyword) : kw ∈ (Spelled.all : List Keyword) := by
  cases kw <;> decide

/-! ### Slots -/

/-- What a node holds for the keyword. -/
def Slot : Keyword → Type
  | .type => Option String
  | .description => Option String
  | .format => Option String
  | .properties => List (String × Schema)
  | .required => List String
  | .items => Option (ItemRule Schema)
  | .additionalProperties => Option (AdditionalRule Schema)
  | .enumValues => List Value
  | .default => Option Value
  | .nullable => Bool
  | .preserveUnknownFields => Option Bool

/-- The value that a slot is written as, unless it is left out. -/
def write : (kw : Keyword) → kw.Slot → Option Value
  | .type => fun a : Option String => a.map .string
  | .description => fun a : Option String => a.map .string
  | .format => fun a : Option String => a.map .string
  | .properties => Schema.propertiesValue
  | .required => fun a : List String => Schema.unlessEmpty (a.map .string)
  | .items => Schema.itemsValue
  | .additionalProperties => Schema.additionalValue
  | .enumValues => Schema.unlessEmpty
  | .default => fun a : Option Value => a
  | .nullable => fun a : Bool => if a then some (.bool true) else none
  | .preserveUnknownFields => fun a : Option Bool => a.map .bool

/-- Reads a slot. -/
def read (depth : Nat) (t : Tree) (as : Schema.Readings) : (kw : Keyword) → Decoded kw.Slot
  | .type => t.optional Tree.text
  | .description => t.optional Tree.text
  | .format => t.optional Tree.text
  | .properties => (t.optional fun _ => as.tree depth).map (·.getD [])
  | .required => (t.optional fun t => t.list depth fun _ t => t.text).map (·.getD [])
  | .items => t.optional fun t => Schema.itemsOf depth t as
  | .additionalProperties => t.optional fun t => Schema.additionalOf depth t as
  | .enumValues => (t.optional fun t => t.list depth Tree.value).map (·.getD [])
  | .default => t.optional (Tree.value depth)
  | .nullable => (t.optional Tree.flag).map (·.getD false)
  | .preserveUnknownFields => t.optional Tree.flag

end Keyword

namespace Schema

/-- The slot of a keyword. -/
def get (s : Schema) : (kw : Keyword) → kw.Slot
  | .type => s.type
  | .description => s.description
  | .format => s.format
  | .properties => s.properties
  | .required => s.required
  | .items => s.items
  | .additionalProperties => s.additionalProperties
  | .enumValues => s.enumValues
  | .default => s.default
  | .nullable => s.nullable
  | .preserveUnknownFields => s.preserveUnknownFields

/-- The node with the slot of a keyword replaced. -/
def put (s : Schema) : (kw : Keyword) → kw.Slot → Schema
  | .type, a => { s with type := a }
  | .description, a => { s with description := a }
  | .format, a => { s with format := a }
  | .properties, a => { s with properties := a }
  | .required, a => { s with required := a }
  | .items, a => { s with items := a }
  | .additionalProperties, a => { s with additionalProperties := a }
  | .enumValues, a => { s with enumValues := a }
  | .default, a => { s with default := a }
  | .nullable, a => { s with nullable := a }
  | .preserveUnknownFields, a => { s with preserveUnknownFields := a }

variable {s n : Schema} {kw kw' : Keyword} {depth : Nat}

@[simp] theorem get_put (a : kw.Slot) : (s.put kw a).get kw = a := by
  cases kw <;> rfl

theorem get_put_of_ne (h : kw' ≠ kw) (a : kw.Slot) : (s.put kw a).get kw' = s.get kw' := by
  cases kw <;> cases kw' <;> first | rfl | exact absurd rfl h

/-- Filling a slot leaves the unnamed keywords as they were. -/
@[simp] theorem extra_put (a : kw.Slot) : (s.put kw a).extra = s.extra := by
  cases kw <;> rfl

/-- No slot depends on the unnamed keywords. -/
@[simp] theorem get_extra (extra : List (String × Value)) :
    { s with extra := extra }.get kw = s.get kw := by
  cases kw <;> rfl

/-- A node is its slots and its other keywords. -/
theorem ext_get (h : ∀ kw, s.get kw = n.get kw) (h' : s.extra = n.extra) : s = n := by
  obtain ⟨⟩ := s
  obtain ⟨⟩ := n
  -- Eleven slots and the unnamed keywords are all the data of a node.
  congr
  · exact h .type
  · exact h .description
  · exact h .format
  · exact h .properties
  · exact h .required
  · exact h .items
  · exact h .additionalProperties
  · exact h .enumValues
  · exact h .default
  · exact h .nullable
  · exact h .preserveUnknownFields

/-- Slots can be filled at will. -/
theorem exists_get (a : (kw : Keyword) → kw.Slot) (extra : List (String × Value)) :
    ∃ s : Schema, (∀ kw, s.get kw = a kw) ∧ s.extra = extra := by
  refine ⟨⟨a .type, a .description, a .format, a .properties, a .required, a .items,
    a .additionalProperties, a .enumValues, a .default, a .nullable, a .preserveUnknownFields,
    extra⟩, fun kw => ?_, rfl⟩
  cases kw <;> rfl

/-- Only the empty list is left out. -/
theorem unlessEmpty_eq_none {items : List Value} (h : unlessEmpty items = none) : items = [] := by
  cases items with
  | nil => rfl
  | cons v items => exact absurd h (by simp [unlessEmpty])

/-- Only an empty table of properties is left out. -/
theorem propertiesValue_eq_none {m : List (String × Schema)} (h : propertiesValue m = none) :
    m = [] := by
  cases m with
  | nil => rfl
  | cons e m => exact absurd h (by simp [propertiesValue])

/-- A rule for items is never left out. -/
theorem itemsValue_eq_none {a : Option (ItemRule Schema)} (h : itemsValue a = none) : a = none := by
  rcases a with _ | _ | _
  · rfl
  · exact absurd h (by simp [itemsValue])
  · exact absurd h (by simp [itemsValue])

/-- A rule for additional properties is never left out. -/
theorem additionalValue_eq_none {a : Option (AdditionalRule Schema)}
    (h : additionalValue a = none) : a = none := by
  rcases a with _ | _ | _
  · rfl
  · exact absurd h (by simp [additionalValue])
  · exact absurd h (by simp [additionalValue])

/-- A slot that is left out is blank. -/
theorem get_of_write_eq_none (h : kw.write (s.get kw) = none) :
    s.get kw = ({} : Schema).get kw := by
  -- Each slot has its own way of leaving out a default, so each needs its own lemma.
  cases kw with
  | type | description | format | preserveUnknownFields => exact Option.map_eq_none_iff.mp h
  | properties => exact propertiesValue_eq_none h
  | required => exact List.map_eq_nil_iff.mp (unlessEmpty_eq_none h)
  | items => exact itemsValue_eq_none h
  | additionalProperties => exact additionalValue_eq_none h
  | enumValues => exact unlessEmpty_eq_none h
  | default => exact h
  -- Here the default is a flag: it is `false`, or `true` would be written.
  | nullable =>
    have hnone : (if s.nullable then some (Value.bool true) else none) = none := h
    cases hb : s.nullable with
    | false => exact hb
    | true => simp [hb] at hnone

/-- The members that the slots of a node are written as. -/
def slotMembers (s : Schema) : List (String × Value) :=
  (Spelled.all : List Keyword).flatMap fun kw => member kw (kw.write (s.get kw))

/-- The value of a node: the members of its slots, and behind them its unnamed keywords. -/
theorem toValue_eq (s : Schema) : s.toValue = .object (s.slotMembers ++ s.extra) := by
  obtain ⟨⟩ := s
  simp only [toValue, slotMembers, Spelled.all, List.flatMap_cons, List.flatMap_nil,
    List.append_assoc, List.append_nil, Keyword.write, get]

/-- The members that some keywords are written as, given the values of their slots. -/
theorem find?_flatMap_member {kws : List Keyword} (hkws : kws.Nodup) (f : Keyword → Option Value)
    (kw : Keyword) : Keyed.find? (Spelled.spell kw) (kws.flatMap fun kw => member kw (f kw))
      = if kw ∈ kws then f kw else none := by
  induction kws with
  | nil => rfl
  | cons kw' kws ih =>
    rw [List.nodup_cons] at hkws
    have hfirst : Keyed.find? (Spelled.spell kw) (member kw' (f kw'))
        = if kw = kw' then f kw else none := by
      cases hf : f kw' with
      | none =>
        split
        · next heq => rw [heq, hf]; rfl
        · rfl
      | some v =>
        rw [member, Keyed.find?_cons, Keyed.find?_nil]
        by_cases heq : kw = kw'
        · rw [if_pos heq, if_pos (congrArg _ heq.symm), heq, hf]
        · rw [if_neg heq, if_neg fun h => heq (Keyword.spell_injective h.symm)]
    -- The members of the first keyword are searched, and then those of the others.
    rw [List.flatMap_cons, Keyed.find?_append, hfirst, ih hkws.2]
    by_cases heq : kw = kw'
    · subst heq
      rw [if_pos rfl, if_neg hkws.1, Option.or_none, if_pos List.mem_cons_self]
    · simp [heq]

/-- The keys of optional members are the spellings of those keywords that have a value. -/
theorem keys_flatMap_member (kws : List Keyword) (f : Keyword → Option Value) :
    Keyed.keys (kws.flatMap fun kw => member kw (f kw))
      = (kws.filter fun kw => (f kw).isSome).map Spelled.spell := by
  induction kws with
  | nil => rfl
  | cons kw kws ih =>
    rw [List.flatMap_cons, List.filter_cons, Keyed.keys_append, ih]
    cases f kw <;> rfl

theorem nodup_all : (Spelled.all : List Keyword).Nodup := by
  decide

/-- Among the members of the slots, each slot is found under its spelling, if it is written. -/
theorem find?_slotMembers (s : Schema) (kw : Keyword) :
    Keyed.find? (Spelled.spell kw) s.slotMembers = kw.write (s.get kw) := by
  rw [slotMembers, find?_flatMap_member nodup_all fun kw => kw.write (s.get kw),
    if_pos kw.mem_all]

/-- The keys of the slots are names of keywords. -/
theorem ofText?_of_mem_slotMembers {k : String} (h : k ∈ Keyed.keys s.slotMembers) :
    ∃ kw : Keyword, Spelled.ofText? k = some kw := by
  rw [slotMembers, keys_flatMap_member _ fun kw => kw.write (s.get kw)] at h
  obtain ⟨kw, -, rfl⟩ := List.mem_map.mp h
  exact ⟨kw, kw.ofText?_spell⟩

/-- The members of the slots have distinct keys. -/
theorem nodup_keys_slotMembers (s : Schema) : (Keyed.keys s.slotMembers).Nodup := by
  rw [slotMembers, keys_flatMap_member _ fun kw => kw.write (s.get kw)]
  exact (nodup_all.filter _).map fun kw kw' => Keyword.spell_injective

/-- No key of `extra` is the name of a keyword. -/
def Unnamed (extra : List (String × Value)) : Prop :=
  ∀ k ∈ Keyed.keys extra, Spelled.ofText? k = (none : Option Keyword)

/-- The other members of a written node. -/
theorem find?_members {k : String} (hk : Spelled.ofText? k = (none : Option Keyword)) :
    Keyed.find? k (s.slotMembers ++ s.extra) = Keyed.find? k s.extra := by
  have hnone : Keyed.find? k s.slotMembers = none := by
    rw [Keyed.find?_eq_none_iff]
    intro h
    obtain ⟨kw, hkw⟩ := ofText?_of_mem_slotMembers h
    exact absurd (hk.symm.trans hkw) (by simp)
  rw [Keyed.find?_append, hnone, Option.none_or]

section

variable (hextra : Unnamed s.extra)
include hextra

/-- The member of a keyword in a written node. -/
theorem find?_spell_members (kw : Keyword) :
    Keyed.find? (Spelled.spell kw) (s.slotMembers ++ s.extra) = kw.write (s.get kw) := by
  have hnone : Keyed.find? (Spelled.spell kw) s.extra = none := by
    rw [Keyed.find?_eq_none_iff]
    intro h
    exact absurd (hextra _ h) (by simp [kw.ofText?_spell])
  rw [Keyed.find?_append, find?_slotMembers, hnone, Option.or_none]

/-- The members of a node have distinct keys if its unnamed keywords have. -/
theorem nodup_keys_members (h : (Keyed.keys s.extra).Nodup) :
    (Keyed.keys (s.slotMembers ++ s.extra)).Nodup := by
  rw [Keyed.keys_append]
  refine s.nodup_keys_slotMembers.append h fun k hslot hkey => ?_
  obtain ⟨kw, hkw⟩ := ofText?_of_mem_slotMembers hslot
  exact absurd ((hextra k hkey).symm.trans hkw) (by simp)

end

/-- Setting a keyword reads its slot and puts it into the node. -/
theorem set_eq (s : Schema) (depth : Nat) (t : Tree) (as : Readings) (kw : Keyword) :
    s.set depth t as kw = (kw.read depth t as).map (s.put kw) := by
  cases kw <;> rw [set, Keyword.read]
  all_goals
    generalize Tree.optional _ t = x
    cases x <;> rfl

/-! ### Reading an object -/

/-- The readings of a tree as nodes. -/
def readings (t : Tree) : Readings where
  node := fun depth => ofTree depth t
  list := fun depth => listOfTree depth t
  tree := fun depth => tableOfTree depth t

/-! #### One step -/

/-- A node is read from an object, one level further in. -/
theorem ofTree_eq_ok_iff {t : Tree} : ofTree depth t = .ok n ↔
    ∃ ms depth', t = .object ms ∧ depth = depth' + 1 ∧ ofMembers depth' {} [] ms = .ok n := by
  cases t with
  | object ms => cases depth <;> simp [ofTree]
  | _ => simp [ofTree]

section

variable {key : Option String} {k : String} {t : Tree} {rest : Members} {seen : List Keyword}

/-- A member whose key is no keyword goes to the others. -/
theorem ofMembers_unnamed_eq_ok_iff (hk : Spelled.ofText? k = (none : Option Keyword)) :
    ofMembers depth s seen (.member (some k) t rest) = .ok n ↔
      ∃ v, t.value depth = .ok v
        ∧ ofMembers depth { s with extra := Keyed.insert k v s.extra } seen rest = .ok n := by
  rw [ofMembers, keyText, ok_bind, hk]
  exact bind_eq_ok

/-- A member whose key is a keyword fills its slot, if no member before it has done so. -/
theorem ofMembers_named_eq_ok_iff (hk : Spelled.ofText? k = some kw) :
    ofMembers depth s seen (.member (some k) t rest) = .ok n ↔
      kw ∉ seen ∧ ∃ a, kw.read depth t (readings t) = .ok a
        ∧ ofMembers depth (s.put kw a) (kw :: seen) rest = .ok n := by
  rw [ofMembers, keyText, ok_bind, hk]
  dsimp only
  -- A keyword that was there already is refused.
  by_cases hseen : kw ∈ seen
  · simp [hseen]
  · rw [if_neg hseen, set_eq]
    simp [bind_eq_ok, map_eq_ok, readings, hseen]

/-- **What can become of a member**: it goes to the others, or it fills the slot of its
keyword. -/
theorem ofMembers_member_cases (h : ofMembers depth s seen (.member key t rest) = .ok n) :
    (∃ k v, key = some k ∧ Spelled.ofText? k = (none : Option Keyword)
      ∧ t.value depth = .ok v
      ∧ ofMembers depth { s with extra := Keyed.insert k v s.extra } seen rest = .ok n)
    ∨ ∃ kw a, key = some (Spelled.spell kw) ∧ kw.read depth t (readings t) = .ok a
      ∧ ofMembers depth (s.put kw a) (kw :: seen) rest = .ok n := by
  -- A key that is no text fails; the others are keywords or not.
  cases key with
  | none => exact absurd h (by simp [ofMembers, keyText])
  | some k =>
    cases hk : (Spelled.ofText? k : Option Keyword) with
    | none =>
      obtain ⟨v, hv, h⟩ := (ofMembers_unnamed_eq_ok_iff hk).mp h
      exact .inl ⟨k, v, rfl, hk, hv, h⟩
    | some kw =>
      obtain ⟨-, a, ha, h⟩ := (ofMembers_named_eq_ok_iff hk).mp h
      exact .inr ⟨kw, a, congrArg some (Keyword.ofText?_eq_some_iff.mp hk), ha, h⟩

end

/-! #### All members -/

/-- The keywords among the keys of an object. -/
def named (ms : List (String × Value)) : List Keyword :=
  ms.filterMap fun e => Spelled.ofText? e.1

/-- The members whose keys are no keywords. -/
def unnamed (ms : List (String × Value)) : List (String × Value) :=
  ms.filter fun e => (Spelled.ofText? e.1 : Option Keyword).isNone

variable {k : String} {v : Value} {ms : List (String × Value)} {seen : List Keyword}

/-- A member without a named keyword adds nothing to the named keywords. -/
theorem named_cons_none (h : Spelled.ofText? k = (none : Option Keyword)) :
    named ((k, v) :: ms) = named ms :=
  List.filterMap_cons_none h

theorem named_cons_some (h : Spelled.ofText? k = some kw) :
    named ((k, v) :: ms) = kw :: named ms :=
  List.filterMap_cons_some h

/-- A member without a named keyword is one of the unnamed. -/
theorem unnamed_cons_none (h : Spelled.ofText? k = (none : Option Keyword)) :
    unnamed ((k, v) :: ms) = (k, v) :: unnamed ms :=
  List.filter_cons_of_pos (by rw [h]; rfl)

/-- A member with a named keyword is not one of the unnamed. -/
theorem unnamed_cons_some (h : Spelled.ofText? k = some kw) :
    unnamed ((k, v) :: ms) = unnamed ms :=
  List.filter_cons_of_neg (by rw [h]; exact Bool.false_ne_true)

/-- A keyword is among the named ones exactly when its spelling is a key. -/
theorem mem_named : kw ∈ named ms ↔ Spelled.spell kw ∈ Keyed.keys ms := by
  rw [named, List.mem_filterMap, Keyed.keys, List.mem_map]
  simp only [Keyword.ofText?_eq_some_iff]

/-- Distinct keys name distinct keywords. -/
theorem nodup_named (h : (Keyed.keys ms).Nodup) : (named ms).Nodup := by
  have heq : named ms = (Keyed.keys ms).filterMap Spelled.ofText? := by
    rw [named, Keyed.keys, List.filterMap_map]
    rfl
  rw [heq]
  refine h.filterMap fun k k' kw hk hk' => ?_
  exact (Keyword.ofText?_eq_some_iff.mp hk).trans (Keyword.ofText?_eq_some_iff.mp hk').symm

/-- The unnamed members have no key that is a keyword. -/
theorem unnamed_unnamed (ms : List (String × Value)) : Unnamed (unnamed ms) := by
  intro k hk
  obtain ⟨e, he, rfl⟩ := List.mem_map.mp hk
  exact Option.isNone_iff_eq_none.mp (List.mem_filter.mp he).2

/-- A key that is no keyword is found among the unnamed members as among all. -/
theorem find?_unnamed (h : Spelled.ofText? k = (none : Option Keyword)) :
    Keyed.find? k (unnamed ms) = Keyed.find? k ms := by
  induction ms with
  | nil => rfl
  | cons e ms ih =>
    obtain ⟨k', v⟩ := e
    -- A member whose key is a keyword is passed over, and is not the one that is sought.
    cases hk' : (Spelled.ofText? k' : Option Keyword) with
    | none => rw [unnamed_cons_none hk', Keyed.find?_cons, Keyed.find?_cons, ih]
    | some kw =>
      rw [unnamed_cons_some hk', ih, Keyed.find?_cons, if_neg]
      rintro rfl
      exact absurd (h.symm.trans hk') (by simp)

/-- The other members as they are kept: sorted, so that no key is repeated, and none is the name
of a keyword. -/
theorem nodup_keys_sortedMembers (ms : List (String × Value)) :
    (Keyed.keys (sortedMembers [] ms)).Nodup := by
  rw [sortedMembers_eq]
  exact Keyed.sorted_nil.overlay.nodup

/-- Sorting unnamed members does not name them. -/
theorem unnamed_sortedMembers (ms : List (String × Value)) :
    Unnamed (sortedMembers [] (unnamed ms)) := by
  intro k hk
  rw [sortedMembers_eq] at hk
  obtain ⟨e, he, rfl⟩ := List.mem_map.mp hk
  obtain ⟨e', he', rfl⟩ := List.mem_map.mp ((Keyed.mem_overlay he).resolve_right List.not_mem_nil)
  exact unnamed_unnamed ms _ (Keyed.mem_keys_of_mem he')

/-- Sorting does not change what is found under a key that is no keyword, but for the order inside
of it. -/
theorem find?_sortedMembers_unnamed (hnodup : (Keyed.keys ms).Nodup)
    (h : Spelled.ofText? k = (none : Option Keyword)) :
    Keyed.find? k (sortedMembers [] (unnamed ms)) = (Keyed.find? k ms).map Value.sorted := by
  have hsub : (Keyed.keys (unnamed ms)).Nodup := hnodup.sublist (List.filter_sublist.map _)
  rw [sortedMembers_eq, find?_sorted hsub, find?_unnamed h]

theorem find?_of_not_mem_named (h : kw ∉ named ms) : Keyed.find? (Spelled.spell kw) ms = none :=
  Keyed.find?_eq_none_iff.mpr (mt mem_named.mpr h)

/-- A slot after an object is read: it comes from the member of its keyword, if there is one. -/
def ReadsSlot (depth : Nat) (s n : Schema) (kw : Keyword) : Option Value → Prop
  | none => n.get kw = s.get kw
  | some v => kw.read depth v.tree (readings v.tree) = .ok (n.get kw)

/-- A member that goes to the others is in the way of no keyword. -/
theorem find?_spell_cons_none (h : Spelled.ofText? k = (none : Option Keyword)) (kw : Keyword) :
    Keyed.find? (Spelled.spell kw) ((k, v) :: ms) = Keyed.find? (Spelled.spell kw) ms := by
  rw [Keyed.find?_cons, if_neg]
  intro heq
  rw [Keyword.ofText?_eq_some_iff.mpr heq] at h
  exact absurd h (by simp)

theorem find?_spell_cons_self (h : Spelled.ofText? k = some kw) :
    Keyed.find? (Spelled.spell kw) ((k, v) :: ms) = some v :=
  (Keyed.find?_cons ..).trans (if_pos (Keyword.ofText?_eq_some_iff.mp h))

/-- A keyword is not found in a first member that names another. -/
theorem find?_spell_cons_of_ne (h : Spelled.ofText? k = some kw) (hne : kw' ≠ kw) :
    Keyed.find? (Spelled.spell kw') ((k, v) :: ms) = Keyed.find? (Spelled.spell kw') ms := by
  rw [Keyed.find?_cons, if_neg]
  intro heq
  exact hne (Keyword.spell_injective (heq.symm.trans (Keyword.ofText?_eq_some_iff.mp h)))

/-- The first member fills its slot, and when its keyword is not repeated no later one does. -/
theorem readsSlot_cons_iff (h : Spelled.ofText? k = some kw) (hnot : kw ∉ named ms) :
    (∀ kw', ReadsSlot depth s n kw' (Keyed.find? (Spelled.spell kw') ((k, v) :: ms))) ↔
      ∃ a, kw.read depth v.tree (readings v.tree) = .ok a
        ∧ ∀ kw', ReadsSlot depth (s.put kw a) n kw' (Keyed.find? (Spelled.spell kw') ms) := by
  have hlater := find?_of_not_mem_named hnot
  refine ⟨?_, ?_⟩
  · intro hslots
    have hread := hslots kw
    rw [find?_spell_cons_self h] at hread
    refine ⟨n.get kw, hread, fun kw' => ?_⟩
    -- The slot has been filled already, and the other ones have not changed.
    by_cases hkw : kw' = kw
    · subst hkw
      rw [hlater, ReadsSlot, get_put]
    · have hslot := hslots kw'
      rw [find?_spell_cons_of_ne h hkw] at hslot
      unfold ReadsSlot at hslot ⊢
      rwa [get_put_of_ne hkw]
  · rintro ⟨a, ha, hslots⟩ kw'
    -- The rest leaves the filled slot alone.
    have hslot := hslots kw'
    by_cases hkw : kw' = kw
    · subst hkw
      rw [hlater, ReadsSlot, get_put] at hslot
      rw [find?_spell_cons_self h, ReadsSlot, hslot]
      exact ha
    · rw [find?_spell_cons_of_ne h hkw]
      unfold ReadsSlot at hslot ⊢
      rwa [get_put_of_ne hkw] at hslot

/-- **What is read from an object**, on top of a node of which the keywords `seen` are set. -/
theorem ofMembers_eq_ok_iff (hdepth : nestingMembers ms ≤ depth) :
    ofMembers depth s seen (membersTree ms) = .ok n ↔
      (∀ kw ∈ named ms, kw ∉ seen) ∧ (named ms).Nodup
        ∧ (∀ kw, ReadsSlot depth s n kw (Keyed.find? (Spelled.spell kw) ms))
        ∧ n.extra = sortedMembers s.extra (unnamed ms) := by
  -- The members are read in order, each into the node so far.
  induction ms generalizing s seen with
  | nil =>
    -- With no member left, the node is as it was: no slot is read and nothing is added.
    rw [membersTree, ofMembers]
    refine ⟨?_, ?_⟩
    · intro h
      obtain rfl := Except.ok.inj h
      exact ⟨by simp [named], by simp [named], fun kw => rfl, rfl⟩
    · rintro ⟨-, -, hslots, hextra⟩
      exact congrArg Except.ok (ext_get hslots hextra).symm
  | cons e ms ih =>
    obtain ⟨k, v⟩ := e
    rw [nestingMembers] at hdepth
    rw [membersTree]
    cases hk : (Spelled.ofText? k : Option Keyword) with
    -- An unnamed keyword goes to `extra`, and no slot sees it.
    | none =>
      rw [ofMembers_unnamed_eq_ok_iff hk, value_tree (by omega)]
      simp only [Except.ok.injEq, exists_eq_left']
      rw [ih (by omega), named_cons_none hk, unnamed_cons_none hk, sortedMembers]
      simp only [find?_spell_cons_none hk, ReadsSlot, get_extra]
    -- A named keyword must be new, and is not named again among the rest, so that its slot stays
    -- as it was read here.
    | some kw =>
      rw [ofMembers_named_eq_ok_iff hk, named_cons_some hk, unnamed_cons_some hk,
        List.forall_mem_cons, List.nodup_cons]
      refine ⟨?_, ?_⟩
      · rintro ⟨hseen, a, ha, h⟩
        obtain ⟨hnew, hnodup, hslots, hextra⟩ := (ih (by omega)).mp h
        have hnot : kw ∉ named ms := fun hmem => hnew kw hmem List.mem_cons_self
        exact ⟨⟨hseen, fun kw' hkw hs => hnew kw' hkw (List.mem_cons_of_mem _ hs)⟩,
          ⟨hnot, hnodup⟩, (readsSlot_cons_iff hk hnot).mpr ⟨a, ha, hslots⟩,
          by rw [hextra, extra_put]⟩
      · rintro ⟨⟨hseen, hnew⟩, ⟨hnot, hnodup⟩, hslots, hextra⟩
        obtain ⟨a, ha, hslots⟩ := (readsSlot_cons_iff hk hnot).mp hslots
        have hnew' : ∀ kw' ∈ named ms, kw' ∉ kw :: seen := by
          intro kw' hkw hs
          rcases List.mem_cons.mp hs with rfl | hs
          · exact hnot hkw
          · exact hnew kw' hkw hs
        exact ⟨hseen, a, ha, (ih (by omega)).mpr
          ⟨hnew', hnodup, hslots, by rw [hextra, extra_put]⟩⟩

/-- The other members of a written node are those that were kept. -/
theorem unnamed_members (hextra : Unnamed s.extra) :
    unnamed (s.slotMembers ++ s.extra) = s.extra := by
  -- All keys of the slots are keywords, and none of the others is.
  have hslots : unnamed s.slotMembers = [] := by
    refine List.filter_eq_nil_iff.mpr fun e he => ?_
    obtain ⟨kw, hkw⟩ := ofText?_of_mem_slotMembers (Keyed.mem_keys_of_mem (k := e.1) he)
    rw [hkw]
    exact Bool.false_ne_true
  have hrest : unnamed s.extra = s.extra := by
    refine List.filter_eq_self.mpr fun e he => ?_
    rw [hextra e.1 (Keyed.mem_keys_of_mem he)]
    rfl
  rw [unnamed, List.filter_append]
  change unnamed s.slotMembers ++ unnamed s.extra = _
  rw [hslots, hrest, List.nil_append]

/-! ### Lists and tables of nodes -/

/-- The values of nodes, one by one. -/
theorem listValues_eq (ss : List Schema) : listValues ss = ss.map toValue := by
  induction ss with
  | nil => rfl
  | cons s ss ih => rw [listValues, ih, List.map_cons]

/-- The members of a table: the values of its nodes under their keys. -/
theorem tableMembers_eq (m : PropertyTree) :
    tableMembers m = m.map fun e => (e.1, e.2.toValue) := by
  induction m with
  | nil => rfl
  | cons e m ih =>
    obtain ⟨k, s⟩ := e
    rw [tableMembers, ih, List.map_cons]

/-- A list of nodes is read from an array, one level further in. -/
theorem listOfTree_eq_ok_iff {t : Tree} {ss : List Schema} : listOfTree depth t = .ok ss ↔
    ∃ items depth', t = .array items ∧ depth = depth' + 1
      ∧ listOfItems depth' items = .ok ss := by
  cases t with
  | array items => cases depth <;> simp [listOfTree]
  | _ => simp [listOfTree]

/-- A list of nodes is read item by item. -/
theorem listOfItems_item_eq_ok_iff {t : Tree} {rest : Items} {ss : List Schema} :
    listOfItems depth (.item t rest) = .ok ss ↔
      ∃ s ss', ss = s :: ss' ∧ ofTree depth t = .ok s ∧ listOfItems depth rest = .ok ss' := by
  rw [listOfItems]
  simp only [bind_eq_ok, pure, Except.pure, Except.ok.injEq]
  refine ⟨?_, ?_⟩
  · rintro ⟨s, hs, ss', hss, rfl⟩
    exact ⟨s, ss', rfl, hs, hss⟩
  · rintro ⟨s, ss', rfl, hs, hss⟩
    exact ⟨s, hs, ss', hss, rfl⟩

/-- The nodes that are read from the items of a list are those that the items are read as. -/
theorem listOfItems_eq_ok_iff {vs : List Value} {ss : List Schema} :
    listOfItems depth (itemsTree vs) = .ok ss ↔
      List.Forall₂ (fun v s => ofTree depth v.tree = .ok s) vs ss := by
  induction vs generalizing ss with
  | nil =>
    rw [itemsTree, listOfItems, List.forall₂_nil_left_iff]
    exact ⟨fun h => (Except.ok.inj h).symm, fun h => congrArg Except.ok h.symm⟩
  | cons v vs ih =>
    rw [itemsTree, listOfItems_item_eq_ok_iff]
    refine ⟨?_, ?_⟩
    · -- The first node, then the others.
      rintro ⟨s, ss', rfl, hs, hss⟩
      exact .cons hs (ih.mp hss)
    · intro h
      cases h with
      | cons hs hss => exact ⟨_, _, rfl, hs, ih.mpr hss⟩

/-- Reads an entry of a property tree. -/
def readEntry (depth : Nat) : Tree → Decoded Schema
  | .null => .ok {}
  | t => ofTree depth t

/-- An entry that is not null is read as a node. -/
theorem readEntry_of_ne {t : Tree} (h : t ≠ .null) : readEntry depth t = ofTree depth t := by
  cases t with
  | null => exact absurd rfl h
  | _ => rfl

/-- A property tree is read from an object, one level further in. -/
theorem tableOfTree_eq_ok_iff {t : Tree} {m : PropertyTree} : tableOfTree depth t = .ok m ↔
    ∃ ms depth', t = .object ms ∧ depth = depth' + 1 ∧ tableOfMembers depth' [] ms = .ok m := by
  cases t with
  | object ms => cases depth <;> simp [tableOfTree]
  | _ => simp [tableOfTree]

/-- A table is read member by member, and a later member replaces an earlier one of the same key.
-/
theorem tableOfMembers_member_eq_ok_iff {m m' : PropertyTree} {key : Option String} {t : Tree}
    {rest : Members} : tableOfMembers depth m (.member key t rest) = .ok m' ↔
      ∃ k s, key = some k ∧ readEntry depth t = .ok s
        ∧ tableOfMembers depth (m.insert k s) rest = .ok m' := by
  cases key with
  | none => simp [tableOfMembers, keyText]
  | some k =>
    -- An entry that is `null` is a blank node.
    have hentry : tableOfMembers depth m (.member (some k) t rest)
        = (readEntry depth t >>= fun s => tableOfMembers depth (m.insert k s) rest) := by
      rw [tableOfMembers]
      cases t <;> rfl
    rw [hentry, bind_eq_ok]
    simp

/-- A property tree is read entry by entry, and of repeated keys the last counts. -/
theorem tableOfMembers_eq_ok_iff {m m' : PropertyTree} :
    tableOfMembers depth m (membersTree ms) = .ok m' ↔
      ∃ layer : PropertyTree,
        List.Forall₂ (fun e e' => e'.1 = e.1 ∧ readEntry depth e.2.tree = .ok e'.2) ms layer
          ∧ m' = Keyed.overlay m layer := by
  induction ms generalizing m with
  | nil =>
    rw [membersTree, tableOfMembers]
    refine ⟨?_, ?_⟩
    · intro h
      exact ⟨[], .nil, (Except.ok.inj h).symm⟩
    · -- The layer of no members is empty.
      rintro ⟨layer, hlayer, rfl⟩
      cases hlayer with
      | nil => rfl
  | cons e ms ih =>
    obtain ⟨k, v⟩ := e
    rw [membersTree, tableOfMembers_member_eq_ok_iff]
    refine ⟨?_, ?_⟩
    · -- The first entry goes in front of the layer that the rest gives.
      rintro ⟨_, s, ⟨⟩, hs, h⟩
      obtain ⟨layer, hlayer, rfl⟩ := ih.mp h
      exact ⟨(k, s) :: layer, .cons ⟨rfl, hs⟩ hlayer, rfl⟩
    · rintro ⟨layer, hlayer, rfl⟩
      cases hlayer with
      | @cons _ e' _ layer he hlayer =>
      obtain ⟨k', s⟩ := e'
      obtain ⟨rfl, hs⟩ := he
      exact ⟨k', s, rfl, hs, ih.mpr ⟨layer, hlayer, rfl⟩⟩

end Schema

end CompositeCrd
