import CompositeCrd.Proofs.Json.Record

/-!
# Reading without regard to the order of members

The order in which an object has its members says nothing. A record finds its fields by their
names, a table is sorted anyway, and everything else is not changed by sorting. So what a codec
reads from a value it reads from the sorted value too (`Codec.ReadsSorted`), and this law goes
up from texts and numbers through optional values, lists, tables and records.

In a record the members of one field are set apart from all others: the slot of the field
depends on them alone, and the slots behind it on the others (`fill_field_eq_ok_iff`). Each part
of an object can be sorted by itself (`Keyed.filter_overlay`).
-/

namespace CompositeCrd

open Json Json.Codec

variable {α β σ : Type} {depth : Nat}

/-! ### Trees of values -/

namespace Json

mutual

/-- Nothing is in the way when a value is passed over. -/
theorem skip_tree : ∀ v : Value, v.tree.skip = .ok ()
  | .null => rfl
  | .bool _ => rfl
  | .number _ => rfl
  | .string _ => rfl
  | .array items => by rw [Value.tree, Tree.skip, skip_itemsTree items]
  | .object members => by rw [Value.tree, Tree.skip, skip_membersTree members]

/-- Items that were written can be passed over. -/
theorem skip_itemsTree : ∀ items : List Value, (itemsTree items).skip = .ok ()
  | [] => rfl
  | v :: items => by rw [itemsTree, Items.skip, skip_tree v, skip_itemsTree items]

/-- Members that were written can be passed over. -/
theorem skip_membersTree : ∀ members : List (String × Value), (membersTree members).skip = .ok ()
  | [] => rfl
  | (k, v) :: members => by
    rw [membersTree, Members.skip, skip_tree v, skip_membersTree members]

end

/-! ### The law -/

/-- **What the codec reads from a value it reads from the sorted value too.** -/
def Codec.ReadsSorted (c : Codec α) : Prop :=
  ∀ ⦃depth : Nat⦄ ⦃v : Value⦄ ⦃a : α⦄, v.Proper → c.decode depth v.tree = .ok a →
    c.decode depth v.sorted.tree = .ok a

namespace Codec

variable {c : Codec α}

/-- There is no order in a text. -/
theorem text_readsSorted : text.ReadsSorted := by
  intro depth v a _ h
  cases v with
  | string s => rwa [Value.sorted.eq_def]
  | _ => exact absurd h (by simp [text, Value.tree, Tree.text])

theorem flag_readsSorted : flag.ReadsSorted := by
  intro depth v a _ h
  cases v with
  | bool b => rwa [Value.sorted.eq_def]
  | _ => exact absurd h (by simp [flag, Value.tree, Tree.flag])

theorem int32_readsSorted : int32.ReadsSorted := by
  intro depth v a _ h
  cases v with
  | number n => rwa [Value.sorted.eq_def]
  | _ => exact absurd h (by simp [int32, Value.tree, Tree.int32])

/-- An object that spells out an enumeration's value has nothing but the spelling. -/
theorem eq_singleton_of_variant [Spelled α] {members : List (String × Value)} {a : α}
    (h : Tree.variant depth (.object (membersTree members)) = .ok a) :
    ∃ k, members = [(k, .null)] := by
  cases depth with
  | zero => exact absurd h (by simp [Tree.variant, enter])
  | succ depth =>
    cases members with
    | nil => exact absurd h (by simp [Tree.variant, enter, membersTree])
    | cons e members =>
      obtain ⟨k, v⟩ := e
      obtain ⟨spelling, -, h⟩ := bind_eq_ok.mp h
      obtain ⟨b, -, h⟩ := bind_eq_ok.mp h
      cases v with
      -- A unit variant is one member with `null`; a second member is too many.
      | null =>
        cases members with
        | nil => exact ⟨k, rfl⟩
        | cons e members => exact absurd h (by simp [Value.tree, membersTree, Members.close])
      | _ => exact absurd h (by simp [Value.tree])

/-- A variant is spelled in one way. -/
theorem spelled_readsSorted [Spelled α] : (spelled : Codec α).ReadsSorted := by
  intro depth v a _ h
  cases v with
  | string s => rwa [Value.sorted.eq_def]
  | object members =>
    obtain ⟨k, rfl⟩ := eq_singleton_of_variant h
    rw [sorted_object, List.map_singleton, Value.sorted.eq_def]
    exact h
  | _ => exact absurd h (by simp [spelled, Value.tree, Tree.variant])

/-- What may be null is read in any order when it is so otherwise. -/
theorem nullable_readsSorted (hc : c.ReadsSorted) : (nullable c).ReadsSorted := by
  intro depth v a hv h
  -- Sorting makes nothing absent that was there, nor the other way round.
  by_cases hnull : v = .null
  · subst hnull
    rwa [Value.sorted.eq_def]
  · change v.tree.optional _ = _ at h
    change v.sorted.tree.optional _ = _
    rw [optional_of_ne _ hnull] at h
    rw [optional_of_ne _ fun hsorted => hnull (sorted_eq_null hsorted)]
    obtain ⟨b, hb, rfl⟩ := map_eq_ok.mp h
    exact map_eq_ok.mpr ⟨b, hc hv hb, rfl⟩

/-- A list is read in any order of the members of its items. -/
theorem list_readsSorted (hc : c.ReadsSorted) : (list c).ReadsSorted := by
  intro depth v as hv h
  cases v with
  | array items =>
    rw [Value.tree] at h
    obtain ⟨_, depth, ⟨⟩, rfl, h⟩ := list_decode_eq_ok_iff.mp h
    have hitems := decode_itemsTree_eq_ok_iff.mp h
    rw [sorted_array]
    refine decode_itemsTree_eq_ok_iff.mpr (List.forall₂_map_left_iff.mpr ?_)
    exact forall₂_imp_of_mem hitems fun v hmem a ha => hc (Value.proper_array.mp hv v hmem) ha
  | _ => exact absurd h (by simp [list_decode_eq_ok_iff, Value.tree])

/-- The same for a map. -/
theorem map_readsSorted (hc : c.ReadsSorted) : (map c).ReadsSorted := by
  intro depth v a hv h
  cases v with
  | object members =>
    rw [Value.tree] at h
    obtain ⟨_, depth, entries, ⟨⟩, rfl, hentries, rfl⟩ := map_decode_eq_ok_iff.mp h
    -- The entries of the sorted object are those of the table that was read.
    have hread := decode_membersTree_eq_ok_iff.mp hentries
    have hsorted : List.Forall₂ (fun (e : String × Value) (e' : String × α) =>
        e'.1 = e.1 ∧ c.decode depth e.2.tree = .ok e'.2)
        (members.map fun e => (e.1, e.2.sorted)) entries := by
      refine List.forall₂_map_left_iff.mpr (forall₂_imp_of_mem hread ?_)
      rintro e he e' ⟨hkey, ha⟩
      exact ⟨hkey, hc (Value.proper_object.mp hv e he) ha⟩
    have hoverlay := decode_membersTree_eq_ok_iff.mpr
      (Keyed.forall₂_overlay (R := fun (v : Value) a => c.decode depth v.tree = .ok a) .nil
        hsorted)
    rw [sorted_object]
    refine map_decode_eq_ok_iff.mpr ⟨_, depth, _, rfl, rfl, hoverlay, SortedMap.ext ?_⟩
    rw [entries_foldl_insert, entries_foldl_insert]
    exact Keyed.sorted_nil.overlay.overlay_nil.symm
  | _ => exact absurd h (by simp [map_decode_eq_ok_iff, Value.tree])

end Codec

end Json

/-! ### Members of one field and of the others -/

namespace Fields

variable {name : String} {c : Codec α} {absent : Option α} {omits : α → Bool}
  {rest : Fields Codec σ β} {ms : Keyed Value} {slot slot' : Option α} {slots slots' : σ}

/-- The members under a field's name. -/
def own (name : String) (ms : Keyed Value) : Keyed Value :=
  ms.filter fun e => e.1 == name

/-- The members under other names. -/
def others (name : String) (ms : Keyed Value) : Keyed Value :=
  ms.filter fun e => e.1 != name

/-- The first slot, when these members under the field's name have been read: an empty slot takes
a member, and a full one takes none. -/
def Slotted (c : Codec α) (depth : Nat) : Option α → Keyed Value → Option α → Prop
  | slot, [], slot' => slot' = slot
  | none, e :: ms, slot' => ∃ a, c.decode depth e.2.tree = .ok a ∧ Slotted c depth (some a) ms slot'
  | some _, _ :: _, _ => False

/-- **The slot of a field depends on the members under its name, and the slots behind it on all
others.** -/
theorem fill_field_eq_ok_iff :
    (membersTree ms).fill (Fields.field name c absent omits rest) depth (slot, slots)
        = .ok (slot', slots')
      ↔ Slotted c depth slot (own name ms) slot'
        ∧ (membersTree (others name ms)).fill rest depth slots = .ok slots' := by
  induction ms generalizing slot slots with
  | nil =>
    change Except.ok (slot, slots) = .ok (slot', slots')
      ↔ slot' = slot ∧ Except.ok slots = .ok slots'
    simp [eq_comm]
  | cons e ms ih =>
    obtain ⟨k, v⟩ := e
    -- A member goes to the slot or to the rest by its name alone.
    by_cases hk : k = name
    · subst hk
      have hown : own k ((k, v) :: ms) = (k, v) :: own k ms := by simp [own]
      have hothers : others k ((k, v) :: ms) = others k ms := by simp [others]
      rw [hown, hothers, membersTree, fill_member]
      cases slot with
      | some a => exact iff_of_false (by simp [fillOne, put]) And.left
      | none =>
        rw [fillOne_self, Slotted]
        cases hdecode : c.decode depth v.tree with
        | error e => exact iff_of_false (by simp [Except.map]) (by simp)
        | ok a =>
          refine ih.trans (and_congr_left fun _ => ?_)
          simp only [Except.ok.injEq, exists_eq_left']
    · have hown : own name ((k, v) :: ms) = own name ms := by simp [own, hk]
      have hothers : others name ((k, v) :: ms) = (k, v) :: others name ms := by simp [others, hk]
      rw [hown, hothers, membersTree, membersTree, fill_member, fill_member,
        fillOne_of_ne (Ne.symm hk), skip_tree]
      -- A member that no field takes is passed over on both sides.
      cases rest.fillOne depth k v.tree slots with
      | none => exact ih
      | some filled =>
        cases filled with
        | ok slots'' => exact ih
        | error e => exact iff_of_false (by simp [Except.map]) (by simp)

/-- An empty slot stays empty or takes the only member there is. -/
theorem slotted_none_iff : Slotted c depth none ms slot' ↔ ms = [] ∧ slot' = none
    ∨ ∃ e a, ms = [e] ∧ c.decode depth e.2.tree = .ok a ∧ slot' = some a := by
  cases ms with
  | nil => simp [Slotted]
  | cons e ms => cases ms <;> simp [Slotted]

/-- Sorting members and taking those of one name are done in either order. -/
theorem own_sorted : own name (Keyed.overlay [] (ms.map fun e => (e.1, e.2.sorted)))
    = Keyed.overlay [] ((own name ms).map fun e => (e.1, e.2.sorted)) := by
  rw [own, Keyed.filter_overlay (· == name), List.filter_map]
  rfl

/-- So are sorting them and taking the others. -/
theorem others_sorted : others name (Keyed.overlay [] (ms.map fun e => (e.1, e.2.sorted)))
    = Keyed.overlay [] ((others name ms).map fun e => (e.1, e.2.sorted)) := by
  rw [others, Keyed.filter_overlay (· != name), List.filter_map]
  rfl

/-- A field is found among the sorted members as it was among the members. -/
theorem Slotted.sorted (hc : c.ReadsSorted) (hms : ∀ e ∈ ms, e.2.Proper)
    (h : Slotted c depth none ms slot) :
    Slotted c depth none (Keyed.overlay [] (ms.map fun e => (e.1, e.2.sorted))) slot := by
  rcases slotted_none_iff.mp h with ⟨rfl, rfl⟩ | ⟨e, a, rfl, ha, rfl⟩
  · exact rfl
  · exact ⟨a, hc (hms e List.mem_cons_self) ha, rfl⟩

/-- Fields whose codecs read from a value what they read from the sorted value. -/
inductive ReadSorted : {σ β : Type} → Fields Codec σ β → Prop
  | done : ReadSorted .done
  | field {α β σ : Type} {name : String} {c : Codec α} {absent : Option α} {omits : α → Bool}
    {rest : Fields Codec σ β} (codec : c.ReadsSorted) (others : ReadSorted rest) :
    ReadSorted (.field name c absent omits rest)

/-- Without fields all members are passed over. -/
theorem fill_done (ms : Keyed Value) : (membersTree ms).fill .done depth () = .ok () := by
  induction ms with
  | nil => rfl
  | cons e ms ih =>
    obtain ⟨k, v⟩ := e
    rw [membersTree, fill_member, skip_tree]
    exact ih

/-- The members of an object fill the slots in any order. -/
theorem ReadSorted.fill {fields : Fields Codec σ β} (h : fields.ReadSorted)
    (hms : ∀ e ∈ ms, e.2.Proper)
    (hfill : (membersTree ms).fill fields depth fields.empty = .ok slots) :
    (membersTree (Keyed.overlay [] (ms.map fun e => (e.1, e.2.sorted)))).fill fields depth
      fields.empty = .ok slots := by
  induction h generalizing ms with
  | done => exact fill_done _
  | field hc _ ih =>
    obtain ⟨slot, slots⟩ := slots
    obtain ⟨hslot, hslots⟩ := fill_field_eq_ok_iff.mp hfill
    rw [empty, fill_field_eq_ok_iff, own_sorted, others_sorted]
    exact ⟨hslot.sorted hc fun e he => hms e (List.mem_of_mem_filter he),
      ih (fun e he => hms e (List.mem_of_mem_filter he)) hslots⟩

/-- Items of a list fill the slots in the order of the fields. -/
theorem ReadSorted.items {fields : Fields Codec σ β} (h : fields.ReadSorted) {items : List Value}
    (hitems : ∀ v ∈ items, v.Proper) {position : Nat} {b : β}
    (hread : (itemsTree items).fields depth fields position = .ok b) :
    (itemsTree (items.map Value.sorted)).fields depth fields position = .ok b := by
  induction h generalizing items position with
  | done =>
    cases items with
    | nil => exact hread
    | cons v items => exact absurd hread (by simp [itemsTree, Items.fields])
  | @field α β σ name c absent omits rest hc _ ih =>
    cases items with
    | nil => exact hread
    | cons v items =>
      obtain ⟨hv, hitems⟩ := List.forall_mem_cons.mp hitems
      obtain ⟨ha, hb⟩ := fields_item_eq_ok_iff.mp hread
      exact fields_item_eq_ok_iff.mpr ⟨hc hv ha, ih hitems hb⟩

end Fields

/-! ### Records -/

namespace Json.Codec

variable {fields : Fields Codec σ β} {make : β → α} {split : α → β}

/-- **A record is read without regard to the order of its members.** -/
theorem record_readsSorted (h : fields.ReadSorted) : (record fields make split).ReadsSorted := by
  intro depth v a hv hread
  obtain ⟨depth, b, rfl, rfl, hbody⟩ := record_decode_eq_ok_iff.mp hread
  refine record_decode_eq_ok_iff.mpr ⟨depth, b, rfl, rfl, ?_⟩
  cases v with
  | array items =>
    obtain ⟨_, _, ⟨⟩, -⟩ | ⟨_, ⟨⟩, hb⟩ := hbody
    rw [sorted_array]
    exact .inr ⟨_, rfl, h.items (Value.proper_array.mp hv) hb⟩
  | object members =>
    obtain ⟨_, slots, ⟨⟩, hslots, hb⟩ | ⟨_, ⟨⟩, -⟩ := hbody
    rw [sorted_object]
    exact .inl ⟨_, slots, rfl, h.fill (Value.proper_object.mp hv) hslots, hb⟩
  | _ => exact absurd hread (by simp [record, Value.tree])

end Json.Codec

end CompositeCrd
