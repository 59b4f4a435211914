import CompositeCrd.Proofs.Json.Record
import CompositeCrd.Proofs.Json.Source

/-!
# Decoding reads to the end

A decoder may give up anywhere, but what it accepts it has read as a whole: the tree can be
passed over without a fault (`Codec.Thorough`), even the parts that the decoder has no use for.
So a document that is decoded has a text of the grammar (`Codec.Thorough.written`).

As with the laws of `CompositeCrd.Proofs.Json.Codec`, there is one lemma for each kind of codec,
and a record is thorough if its fields are.
-/

namespace CompositeCrd

open Json Json.Codec

variable {α β σ : Type} {depth : Nat}

/-! ### Parts of a tree -/

namespace Json

/-- A text that is read can be skipped. -/
theorem skip_of_text {t : Tree} {s : String} (h : t.text = .ok s) : t.skip = .ok () := by
  cases t with
  | string text => rfl
  | _ => exact absurd h (by simp [Tree.text])

/-- A flag that is read can be skipped. -/
theorem skip_of_flag {t : Tree} {b : Bool} (h : t.flag = .ok b) : t.skip = .ok () := by
  cases t with
  | bool b => rfl
  | _ => exact absurd h (by simp [Tree.flag])

/-- An optional value that is read can be skipped, null included. -/
theorem skip_of_optional {f : Tree → Decoded α} {t : Tree} {a : Option α}
    (hf : ∀ a, f t = .ok a → t.skip = .ok ()) (h : t.optional f = .ok a) : t.skip = .ok () := by
  by_cases ht : t = .null
  · subst ht
    rfl
  · rw [optional_of_ne_null f ht] at h
    obtain ⟨a', ha', -⟩ := map_eq_ok.mp h
    exact hf a' ha'

/-- Items that are decoded can be skipped. -/
theorem skip_of_decode {f : Tree → Decoded α} (hf : ∀ t a, f t = .ok a → t.skip = .ok ()) :
    ∀ {items : Items} {as : List α}, items.decode f = .ok as → items.skip = .ok ()
  | .closed, _, _ => rfl
  | .broken fault, _, h => absurd h (by simp [Items.decode])
  | .item t rest, as, h => by
    obtain ⟨a, as, rfl, ha, has⟩ := Items.decode_item_eq_ok_iff.mp h
    exact skip_item.mpr ⟨hf t a ha, skip_of_decode hf has⟩

/-- A list that is decoded can be skipped. -/
theorem skip_of_list {f : Nat → Tree → Decoded α} (hf : ∀ depth t a, f depth t = .ok a →
    t.skip = .ok ()) {t : Tree} {as : List α} (h : t.list depth f = .ok as) : t.skip = .ok () := by
  obtain ⟨items, depth, rfl, rfl, has⟩ := Tree.list_eq_ok_iff.mp h
  exact skip_of_decode (hf depth) has

/-- Members that are decoded can be skipped. -/
theorem skip_of_membersDecode {f : Tree → Decoded α} (hf : ∀ t a, f t = .ok a → t.skip = .ok ()) :
    ∀ {ms : Members} {es : List (String × α)}, ms.decode f = .ok es → ms.skip = .ok ()
  | .closed, _, _ => rfl
  | .broken _, _, h | .noKey _, _, h | .badKey _ _, _, h => absurd h (by simp [Members.decode])
  | .member key t rest, es, h => by
    obtain ⟨k, a, es, -, rfl, ha, hes⟩ := Members.decode_member_eq_ok_iff.mp h
    exact skip_member.mpr ⟨hf t a ha, skip_of_membersDecode hf hes⟩

/-- An object that is closed can be skipped. -/
theorem skip_of_close {ms : Members} (h : ms.close = .ok ()) : ms.skip = .ok () := by
  cases ms with
  | closed => rfl
  | _ => exact absurd h (by simp [Members.close])

/-- A choice that is read can be skipped, in both of its notations. -/
theorem skip_of_variant [Spelled α] {t : Tree} {a : α} (h : t.variant depth = .ok a) :
    t.skip = .ok () := by
  cases t with
  | string text => rfl
  | object members =>
    cases depth with
    | zero => exact absurd h (by simp [Tree.variant, enter])
    | succ depth =>
      cases members with
      | member key t rest =>
        -- The one member has `null` under it, and then the brace follows.
        obtain ⟨k, -, h⟩ := bind_eq_ok.mp h
        obtain ⟨a', -, h⟩ := bind_eq_ok.mp h
        dsimp only at h
        cases t with
        | null =>
          obtain ⟨_, hclose, -⟩ := bind_eq_ok.mp h
          rw [Tree.skip, skip_member]
          exact ⟨rfl, skip_of_close hclose⟩
        | _ => exact absurd h (by simp)
      | _ => exact absurd h (by simp [Tree.variant, enter])
  | _ => exact absurd h (by simp [Tree.variant])

mutual

/-- A value that is read can be skipped. -/
theorem Tree.skip_of_value {depth : Nat} : ∀ {t : Tree} {v : Value}, t.value depth = .ok v →
    t.skip = .ok ()
  | .null, _, _ | .bool _, _, _ | .number _, _, _ | .string _, _, _ => rfl
  | .broken _ _, _, h => absurd h (by simp [Tree.value])
  | .array items, v, h => by
    obtain ⟨depth, vs, rfl, -, hvs⟩ := Tree.value_array_eq_ok_iff.mp h
    exact Items.skip_of_values hvs
  | .object members, v, h => by
    obtain ⟨depth, m, rfl, -, hm⟩ := Tree.value_object_eq_ok_iff.mp h
    exact Members.skip_of_values hm

/-- Items whose values are read can be skipped. -/
theorem Items.skip_of_values {depth : Nat} : ∀ {items : Items} {vs : List Value},
    items.values depth = .ok vs → items.skip = .ok ()
  | .closed, _, _ => rfl
  | .broken _, _, h => absurd h (by simp [Items.values])
  | .item t rest, vs, h => by
    obtain ⟨v, vs, rfl, hv, hvs⟩ := Items.values_item_eq_ok_iff.mp h
    exact skip_item.mpr ⟨Tree.skip_of_value hv, Items.skip_of_values hvs⟩

/-- Members whose values are read can be skipped. -/
theorem Members.skip_of_values {depth : Nat} : ∀ {ms : Members} {m m' : Keyed Value},
    ms.values depth m = .ok m' → ms.skip = .ok ()
  | .closed, _, _, _ => rfl
  | .broken _, _, _, h | .noKey _, _, _, h | .badKey _ _, _, _, h =>
    absurd h (by simp [Members.values])
  | .member key t rest, m, m', h => by
    obtain ⟨k, v, -, hv, h⟩ := Members.values_member_eq_ok_iff.mp h
    exact skip_member.mpr ⟨Tree.skip_of_value hv, Members.skip_of_values h⟩

end

/-! ### Codecs -/

namespace Codec

/-- **What the codec reads can be passed over.** -/
def Thorough (c : Codec α) : Prop :=
  ∀ ⦃depth t a⦄, c.decode depth t = .ok a → t.skip = .ok ()

theorem text_thorough : text.Thorough :=
  fun _ _ _ => skip_of_text

theorem flag_thorough : flag.Thorough :=
  fun _ _ _ => skip_of_flag

/-- Integers are read to their end. -/
theorem int32_thorough : int32.Thorough := by
  intro depth t a h
  cases t with
  | number n => rfl
  | _ => exact absurd h (by simp [int32, Tree.int32])

theorem spelled_thorough [Spelled α] : (spelled : Codec α).Thorough :=
  fun _ _ _ => skip_of_variant

variable {c : Codec α}

theorem nullable_thorough (h : c.Thorough) : (nullable c).Thorough :=
  fun _ _ _ => skip_of_optional fun _ ha => h ha

theorem list_thorough (h : c.Thorough) : (list c).Thorough :=
  fun _ _ _ => skip_of_list fun _ _ _ ha => h ha

/-- Maps are read to their end. -/
theorem map_thorough (h : c.Thorough) : (map c).Thorough := by
  intro depth t m hm
  obtain ⟨members, depth, es, rfl, rfl, hes, -⟩ := map_decode_eq_ok_iff.mp hm
  exact skip_of_membersDecode (fun _ _ ha => h ha) hes

end Codec

end Json

/-! ### Records -/

namespace Fields

/-- The codecs of all fields are thorough. -/
def Thorough : {σ β : Type} → Fields Codec σ β → Prop
  | _, _, .done => True
  | _, _, .field _ c _ _ rest => c.Thorough ∧ rest.Thorough

/-- The value of a field is read to its end. -/
theorem Thorough.skip_of_fillOne : ∀ {σ β : Type} {fields : Fields Codec σ β} {k : String}
    {t : Tree} {slots slots' : σ}, fields.Thorough →
    fields.fillOne depth k t slots = some (.ok slots') → t.skip = .ok ()
  | _, _, .done, _, _, _, _, _, h => absurd h (by simp [fillOne, put])
  | _, _, .field name c absent omits rest, k, t, (slot, slots), (slot', slots'), hfields, h => by
    obtain ⟨-, -, -, a, ha, -⟩ | ⟨-, -, hfilled⟩ := fillOne_field_eq_ok_iff.mp h
    · exact hfields.1 ha
    · exact hfields.2.skip_of_fillOne hfilled

/-- The members of a record are read to their end, those without a field by being skipped. -/
theorem Thorough.skip_of_fill {fields : Fields Codec σ β} (hfields : fields.Thorough) :
    ∀ {ms : Members} {slots slots' : σ}, ms.fill fields depth slots = .ok slots' →
      ms.skip = .ok ()
  | .closed, _, _, _ => rfl
  | .broken _, _, _, h | .noKey _, _, _, h | .badKey _ _, _, _, h =>
    absurd h (by simp [Members.fill])
  | .member key t rest, slots, slots', h => by
    obtain ⟨k, -, ⟨slots₁, hfilled, h⟩ | ⟨-, hskip, h⟩⟩ := fill_member_eq_ok_iff.mp h
    · exact skip_member.mpr ⟨hfields.skip_of_fillOne hfilled, hfields.skip_of_fill h⟩
    · exact skip_member.mpr ⟨hskip, hfields.skip_of_fill h⟩

/-- A record that is written as a list is read to its end. -/
theorem Thorough.skip_of_items : ∀ {σ β : Type} {fields : Fields Codec σ β} {items : Items}
    {position : Nat} {b : β}, fields.Thorough → items.fields depth fields position = .ok b →
    items.skip = .ok ()
  | _, _, _, .closed, _, _, _, _ => rfl
  | _, _, .done, .broken _, _, _, _, h => absurd h (by simp [Items.fields])
  | _, _, .done, .item _ _, _, _, _, h => absurd h (by simp [Items.fields])
  | _, _, .field _ _ _ _ _, .broken _, _, _, _, h => absurd h (by simp [Items.fields])
  | _, _, .field name c absent omits rest, .item t items, position, b, hfields, h => by
    obtain ⟨ha, hb⟩ := fields_item_eq_ok_iff.mp h
    exact skip_item.mpr ⟨hfields.1 ha, hfields.2.skip_of_items hb⟩

end Fields

namespace Json.Codec

/-- Records are read to their end, in both of their notations. -/
theorem record_thorough {fields : Fields Codec σ β} {make : β → α} {split : α → β}
    (h : fields.Thorough) : (record fields make split).Thorough := by
  intro depth t a ha
  obtain ⟨depth, b, rfl, rfl, ⟨ms, slots, rfl, hslots, -⟩ | ⟨items, rfl, hb⟩⟩ :=
    record_decode_eq_ok_iff.mp ha
  · exact h.skip_of_fill hslots
  · exact h.skip_of_items hb

/-- **What is decoded is written in the document**, from its start to its end. -/
theorem Thorough.written {c : Codec α} (h : c.Thorough) {text : String} {a : α}
    (ha : c.read (.ofText text) = .ok a) :
    ∃ r, (Document.ofText text).root.Written text.toList r ∧ dropSpace r = [] := by
  obtain ⟨hroot, hended⟩ := decode_eq_ok_iff.mp ha
  obtain ⟨r, hr, hr'⟩ := ofText_written (h hroot)
  exact ⟨r, hr, List.isEmpty_iff.mp (hr'.symm.trans hended)⟩

end Json.Codec

end CompositeCrd
