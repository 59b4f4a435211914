import CompositeCrd.Proofs.Json.Codec

/-!
# Lawful records

The laws of `CompositeCrd.Proofs.Json.Codec` for records. Two things are to be known about each
field (`Fields.Lawful`): that its codec is lawful, and that a value that is not written is the
one that a missing field takes. The rest is the same for all records.

Reading does not care for the order of members. A written record has its members in the order
of the fields, so the first of them fills its own slot, and the members of later fields pass
that slot by (`fill_of_not_mem_keys`).

What is read is told apart step by step: which slot a member fills (`fillOne_field_eq_ok_iff`),
what becomes of a member (`fill_member_eq_ok_iff`), and what the record is made of
(`finish_field_eq_ok_iff`, `record_decode_eq_ok_iff`).
-/

namespace CompositeCrd

open Json Json.Codec

variable {α β σ : Type} {depth n : Nat}

namespace Fields

/-- The names of the fields, in the order of declaration. -/
def names {C : Type → Type} : {σ β : Type} → Fields C σ β → List String
  | _, _, .done => []
  | _, _, .field name _ _ _ rest => name :: rest.names

/-- **Fields whose values are read back along `R`.** -/
inductive Lawful (depth : Nat) : {σ β : Type} → Fields Codec σ β → (β → β → Prop) → Prop
  | done : Lawful depth .done fun _ _ => True
  | field {α β σ : Type} {name : String} {c : Codec α} {absent : Option α} {omits : α → Bool}
    {rest : Fields Codec σ β} {R : α → α → Prop} {Q : β → β → Prop}
    (codec : c.Lawful depth R) (settled : ∀ a, absent = some a → ∃ b, R a b)
    (left_out : ∀ a b, R a b → omits a = true → absent = some b)
    (others : Lawful depth rest Q) :
    Lawful depth (.field name c absent omits rest) fun p q => R p.1 q.1 ∧ Q p.2 q.2

/-- **The values of fields that are written within `n` levels** are those with `P`. -/
def Writes (fields : Fields Codec σ β) (n : Nat) (P : β → Prop) : Prop :=
  ∀ b, (∃ ms, encodeFields fields b = some ms ∧ nestingMembers ms ≤ n) ↔ P b

variable {name : String} {c : Codec α} {absent : Option α} {omits : α → Bool}
  {rest : Fields Codec σ β} {R : α → α → Prop} {Q : β → β → Prop} {P : α → Prop} {P' : β → Prop}

/-! ### Kinds of fields -/

namespace Lawful

/-- A field that must be there comes back if its value does. -/
theorem required (hc : c.Lawful depth R) (h : rest.Lawful depth Q) :
    (Fields.required name c rest).Lawful depth fun p q => R p.1 q.1 ∧ Q p.2 q.2 :=
  .field hc (by rintro a ⟨⟩) (by rintro a b - ⟨⟩) h

/-- A field with a default that is written all the same comes back if its value does. -/
theorem defaulted {default : α} (hc : c.Lawful depth R) (hdefault : R default default)
    (h : rest.Lawful depth Q) :
    (Fields.defaulted name c default rest).Lawful depth fun p q => R p.1 q.1 ∧ Q p.2 q.2 :=
  .field hc (by rintro a ⟨⟩; exact ⟨_, hdefault⟩) (by rintro a b - ⟨⟩) h

/-- A field that is left out comes back if it holds the default then. -/
theorem omitted {default : α} (hc : c.Lawful depth R) (hdefault : R default default)
    (homits : ∀ a b, R a b → omits a = true → default = b) (h : rest.Lawful depth Q) :
    (Fields.omitted name c default omits rest).Lawful depth fun p q => R p.1 q.1 ∧ Q p.2 q.2 :=
  .field hc (by rintro a ⟨⟩; exact ⟨_, hdefault⟩)
    (fun a b hab ha => congrArg some (homits a b hab ha)) h

/-- A field that is left out when there is no value comes back as none. -/
theorem optional (hc : c.Lawful depth R) (hnull : c.NeverNull) (h : rest.Lawful depth Q) :
    (Fields.optional name c rest).Lawful depth fun p q => Option.Rel R p.1 q.1 ∧ Q p.2 q.2 := by
  refine omitted (nullable_lawful hc hnull) .none ?_ h
  rintro a b hab ha
  obtain rfl := Option.isNone_iff_eq_none.mp ha
  cases hab
  rfl

/-- A list that is left out when it is empty comes back as the empty list. -/
theorem listed (hc : ∀ d, depth = d + 1 → c.Lawful d R) (h : rest.Lawful depth Q) :
    (Fields.listed name c rest).Lawful depth fun p q => List.Forall₂ R p.1 q.1 ∧ Q p.2 q.2 := by
  refine omitted (list_lawful hc) .nil ?_ h
  rintro a b hab ha
  obtain rfl := List.isEmpty_iff.mp ha
  cases hab
  rfl

/-- A map that is left out when it is empty comes back as the empty map. -/
theorem mapped (hc : ∀ d, depth = d + 1 → c.Lawful d (· = ·)) (h : rest.Lawful depth Q) :
    (Fields.mapped name c rest).Lawful depth fun p q => p.1 = q.1 ∧ Q p.2 q.2 := by
  refine omitted (map_lawful hc) rfl ?_ h
  rintro a _ rfl ha
  exact SortedMap.ext (List.isEmpty_iff.mp ha).symm

end Lawful

namespace Writes

theorem done : Fields.done.Writes n fun _ => True :=
  fun _ => iff_of_true ⟨[], rfl, Nat.zero_le n⟩ trivial

/-- A field is written, or the record is written without it. -/
theorem field (hc : c.Writes n P) (homits : ∀ a, omits a = true → P a) (h : rest.Writes n P') :
    (Fields.field name c absent omits rest).Writes n fun p => P p.1 ∧ P' p.2 := by
  rintro ⟨a, b⟩
  change _ ↔ P a ∧ P' b
  rw [← h b, encodeFields]
  cases ha : omits a with
  | true =>
    -- Nothing is written of a value that is left out, so it must satisfy `P` by itself.
    have hP := homits a ha
    refine ⟨?_, ?_⟩
    · rintro ⟨ms, hms, hle⟩
      obtain ⟨ms', hms', hms⟩ := Option.bind_eq_some_iff.mp hms
      obtain rfl := Option.some.inj hms
      exact ⟨hP, ms', hms', hle⟩
    · rintro ⟨-, ms, hms, hle⟩
      exact ⟨ms, Option.bind_eq_some_iff.mpr ⟨ms, hms, rfl⟩, hle⟩
  -- A field that is written stands in front of the members of the others.
  | false =>
    rw [← hc a]
    refine ⟨?_, ?_⟩
    · rintro ⟨ms, hms, hle⟩
      obtain ⟨ms', hms', hms⟩ := Option.bind_eq_some_iff.mp hms
      obtain ⟨v, hv, hms⟩ := Option.bind_eq_some_iff.mp hms
      obtain rfl := Option.some.inj hms
      obtain ⟨hfirst, hrest⟩ := max_le_iff.mp hle
      exact ⟨⟨v, hv, hfirst⟩, ms', hms', hrest⟩
    · rintro ⟨⟨v, hv, hfirst⟩, ms, hms, hrest⟩
      refine ⟨(name, v) :: ms, ?_, max_le hfirst hrest⟩
      exact Option.bind_eq_some_iff.mpr ⟨ms, hms, Option.bind_eq_some_iff.mpr ⟨v, hv, rfl⟩⟩

/-- A field that must be there can be written if its value can. -/
theorem required (hc : c.Writes n P) (h : rest.Writes n P') :
    (Fields.required name c rest).Writes n fun p => P p.1 ∧ P' p.2 :=
  field hc (by rintro a ⟨⟩) h

/-- So can a field with a default that is written all the same. -/
theorem defaulted {default : α} (hc : c.Writes n P) (h : rest.Writes n P') :
    (Fields.defaulted name c default rest).Writes n fun p => P p.1 ∧ P' p.2 :=
  field hc (by rintro a ⟨⟩) h

/-- A field that may be left out can be written if its value can whenever it is not. -/
theorem omitted {default : α} (hc : c.Writes n P) (homits : ∀ a, omits a = true → P a)
    (h : rest.Writes n P') :
    (Fields.omitted name c default omits rest).Writes n fun p => P p.1 ∧ P' p.2 :=
  field hc homits h

/-- An optional field can be written if its value can, when there is one. -/
theorem optional (hc : c.Writes n P) (h : rest.Writes n P') : (Fields.optional name c rest).Writes n
    fun p => (∀ a, p.1 = some a → P a) ∧ P' p.2 := by
  refine omitted (nullable_writes hc) ?_ h
  rintro _ ha b rfl
  exact absurd ha (by simp)

/-- A list can be written if its items can, one level deeper. -/
theorem listed (hc : c.Writes n P) (h : rest.Writes (n + 1) P') :
    (Fields.listed name c rest).Writes (n + 1) fun p => (∀ a ∈ p.1, P a) ∧ P' p.2 := by
  refine omitted (list_writes hc) ?_ h
  rintro as has a ha
  obtain rfl := List.isEmpty_iff.mp has
  exact absurd ha List.not_mem_nil

/-- A map can be written if its values can, one level deeper. -/
theorem mapped (hc : c.Writes n P) (h : rest.Writes (n + 1) P') :
    (Fields.mapped name c rest).Writes (n + 1) fun p => (∀ e ∈ p.1.entries, P e.2) ∧ P' p.2 := by
  refine omitted (map_writes hc) ?_ h
  rintro m hm e he
  rw [List.isEmpty_iff.mp hm] at he
  exact absurd he List.not_mem_nil

end Writes

/-! ### Steps of the reader -/

/-- Fills the slot of the field `k` with what its codec reads from `t`, if there is one. -/
def fillOne (fields : Fields Codec σ β) (depth : Nat) (k : String) (t : Tree) (slots : σ) :
    Option (Decoded σ) :=
  fields.put (fun c => c.decode depth t) (fun name => .error (.mismatch (.duplicateField name)))
    k slots

/-- Members are filled in one by one. One that belongs to no field is skipped. -/
theorem fill_member {fields : Fields Codec σ β} {k : String} {t : Tree} {ms : Members} {slots : σ} :
    (Members.member (some k) t ms).fill fields depth slots
      = match fields.fillOne depth k t slots with
        | some filled => filled >>= ms.fill fields depth
        | none => match t.skip with
          | .ok () => ms.fill fields depth slots
          | .error fault => .error (.fault fault) :=
  rfl

section

variable {key : Option String} {k : String} {t : Tree} {slot slot' : Option α} {slots slots' : σ}

/-- **What can become of a member**: it fills the slot of its field, or no field is called so and
it is passed over. -/
theorem fill_member_eq_ok_iff {fields : Fields Codec σ β} {ms : Members} :
    (Members.member key t ms).fill fields depth slots = .ok slots' ↔
      ∃ k, key = some k ∧
        ((∃ slots₁, fields.fillOne depth k t slots = some (.ok slots₁)
            ∧ ms.fill fields depth slots₁ = .ok slots')
          ∨ fields.fillOne depth k t slots = none ∧ t.skip = .ok ()
            ∧ ms.fill fields depth slots = .ok slots') := by
  cases key with
  | none => simp [Members.fill, keyText]
  | some k =>
    simp only [fill_member, Option.some.injEq, exists_eq_left']
    -- Without a field, the value is passed over.
    cases fields.fillOne depth k t slots with
    | none => cases t.skip <;> simp
    | some filled => simp [bind_eq_ok]

/-- The slot of the first field is filled if it is empty. -/
theorem fillOne_self :
    (Fields.field name c absent omits rest).fillOne depth name t (none, slots)
      = some ((c.decode depth t).map fun a => (some a, slots)) := by
  rw [fillOne, put, if_pos rfl]
  cases c.decode depth t with
  | ok a => rfl
  | error e => rfl

/-- Members of other fields leave the slot of the first field alone. -/
theorem fillOne_of_ne (h : name ≠ k) :
    (Fields.field name c absent omits rest).fillOne depth k t (slot, slots)
      = (rest.fillOne depth k t slots).map fun filled => filled.map fun slots => (slot, slots) := by
  rw [fillOne, put, if_neg h, fillOne]
  congr 1

/-- **A slot is filled** that was empty, by a member under the name of its field. -/
theorem fillOne_field_eq_ok_iff :
    (Fields.field name c absent omits rest).fillOne depth k t (slot, slots)
        = some (.ok (slot', slots')) ↔
      (name = k ∧ slot = none ∧ slots' = slots
          ∧ ∃ a, c.decode depth t = .ok a ∧ slot' = some a)
        ∨ name ≠ k ∧ slot' = slot ∧ rest.fillOne depth k t slots = some (.ok slots') := by
  by_cases hk : name = k
  · subst hk
    -- A slot that is filled already refuses a second value.
    cases slot with
    | some a => simp [fillOne, put]
    | none =>
      rw [fillOne_self]
      cases c.decode depth t with
      | ok a => simp [Except.map, eq_comm, and_comm]
      | error e => simp [Except.map]
  · rw [fillOne_of_ne hk]
    simp [hk, map_eq_ok, eq_comm, and_comm]

/-- A member belongs to no field if it has the name of none. -/
theorem fillOne_field_eq_none_iff :
    (Fields.field name c absent omits rest).fillOne depth k t (slot, slots) = none ↔
      name ≠ k ∧ rest.fillOne depth k t slots = none := by
  by_cases hk : name = k
  · cases slot <;> simp [fillOne, put, hk]
  · rw [fillOne_of_ne hk, Option.map_eq_none_iff]
    exact (and_iff_right hk).symm

/-- The first slot gives its value, or the field's value for a missing member. -/
theorem finish_field_eq_ok_iff {C : Type → Type} {c : C α} {rest : Fields C σ β} {p : α × β} :
    (Fields.field name c absent omits rest).finish (slot, slots) = .ok p ↔
      slot.or absent = some p.1 ∧ rest.finish slots = .ok p.2 := by
  obtain ⟨a, b⟩ := p
  rw [finish]
  cases slot.or absent with
  | none => simp
  | some a' => cases rest.finish slots <;> simp

/-- An item is read as the first field. -/
theorem fields_item_eq_ok_iff {items : Items} {position : Nat} {p : α × β} :
    (Items.item t items).fields depth (.field name c absent omits rest) position = .ok p ↔
      c.decode depth t = .ok p.1 ∧ items.fields depth rest (position + 1) = .ok p.2 := by
  obtain ⟨a, b⟩ := p
  simp only [Items.fields, bind_eq_ok, pure, Except.pure, Except.ok.injEq, Prod.mk.injEq]
  refine ⟨?_, ?_⟩
  · rintro ⟨a, ha, b, hb, rfl, rfl⟩
    exact ⟨ha, hb⟩
  · rintro ⟨ha, hb⟩
    exact ⟨a, ha, b, hb, rfl, rfl⟩

/-- A list that ends early leaves the first field to its value for that. -/
theorem fields_closed_eq_ok_iff {position : Nat} {p : α × β} :
    Items.closed.fields depth (.field name c absent omits rest) position = .ok p ↔
      absent = some p.1 ∧ Items.closed.fields depth rest (position + 1) = .ok p.2 := by
  obtain ⟨a, b⟩ := p
  -- The list has ended, so the field takes the value for its absence.
  cases absent with
  | none => simp [Items.fields]
  | some a' =>
    simp only [Items.fields, bind_eq_ok, pure, Except.pure, Except.ok.injEq, Prod.mk.injEq,
      Option.some.injEq]
    refine ⟨?_, ?_⟩
    · rintro ⟨b, hb, rfl, rfl⟩
      exact ⟨rfl, hb⟩
    · rintro ⟨rfl, hb⟩
      exact ⟨b, hb, rfl, rfl⟩

end

/-! ### What has been read is settled -/

/-- The slots of lawful fields hold settled values only, from the empty slots on to the record
that is made of them. -/
theorem Lawful.exists_invariant {fields : Fields Codec σ β} (h : fields.Lawful depth Q) :
    ∃ S : σ → Prop, S fields.empty
      ∧ (∀ k t slots slots', t.Proper → S slots →
          fields.fillOne depth k t slots = some (.ok slots') → S slots')
      ∧ ∀ slots b, S slots → fields.finish slots = .ok b → ∃ b', Q b b' := by
  induction h with
  | done =>
    refine ⟨fun _ => True, trivial, ?_, ?_⟩
    · intros
      trivial
    · intros
      exact ⟨(), trivial⟩
  | @field α β σ name c absent omits rest R Q hc habsent _ _ ih =>
    obtain ⟨S, hempty, hput, hfinish⟩ := ih
    -- What the first slot holds is settled, and the invariant of the others holds of the rest.
    refine ⟨fun s => (∀ a, s.1 = some a → ∃ a', R a a') ∧ S s.2, ⟨by rintro a ⟨⟩, hempty⟩, ?_, ?_⟩
    · rintro k t ⟨slot, slots⟩ ⟨slot', slots'⟩ ht ⟨hslot, hslots⟩ hfill
      obtain ⟨-, rfl, rfl, a, ha, rfl⟩ | ⟨-, rfl, hfilled⟩ := fillOne_field_eq_ok_iff.mp hfill
      · refine ⟨?_, hslots⟩
        rintro _ ⟨⟩
        exact hc.settled ht ha
      · exact ⟨hslot, hput k t slots _ ht hslots hfilled⟩
    · rintro ⟨slot, slots⟩ ⟨a, b⟩ ⟨hslot, hslots⟩ h
      obtain ⟨ha, hb⟩ := finish_field_eq_ok_iff.mp h
      obtain ⟨b', hb'⟩ := hfinish _ _ hslots hb
      -- The value is what the slot holds, or the value of a missing field.
      rcases Option.or_eq_some_iff.mp ha with ha | ⟨-, ha⟩
      · obtain ⟨a', ha'⟩ := hslot _ ha
        exact ⟨(a', b'), ha', hb'⟩
      · obtain ⟨a', ha'⟩ := habsent _ ha
        exact ⟨(a', b'), ha', hb'⟩

/-- What one member preserves, all members preserve. -/
theorem Lawful.settled_of_fill {fields : Fields Codec σ β} {S : σ → Prop}
    (hS : ∀ k t slots slots', t.Proper → S slots →
      fields.fillOne depth k t slots = some (.ok slots') → S slots') :
    ∀ {ms : Members} {slots slots' : σ}, ms.Proper → S slots →
      ms.fill fields depth slots = .ok slots' → S slots'
  | .closed, slots, slots', _, h, hfill => Except.ok.inj hfill ▸ h
  | .broken _, slots, slots', _, _, hfill | .noKey _, slots, slots', _, _, hfill
  | .badKey _ _, slots, slots', _, _, hfill => absurd hfill (by simp [Members.fill])
  | .member key t rest, slots, slots', hms, h, hfill => by
    obtain ⟨k, -, ⟨slots₁, hfilled, hfill⟩ | ⟨-, -, hfill⟩⟩ := fill_member_eq_ok_iff.mp hfill
    · exact settled_of_fill hS hms.2 (hS _ _ _ _ hms.1 h hfilled) hfill
    · -- No field is called `k`: the member is skipped, and the slots are as before.
      exact settled_of_fill hS hms.2 h hfill

/-- A record that is read from a list is settled too. -/
theorem Lawful.settled_of_items {fields : Fields Codec σ β} (h : fields.Lawful depth Q) :
    ∀ {items : Items} {position : Nat} {b : β}, items.Proper →
      items.fields depth fields position = .ok b → ∃ b', Q b b' := by
  induction h with
  | done =>
    intros
    exact ⟨(), trivial⟩
  | @field α β σ name c absent omits rest R Q hc habsent _ _ ih =>
    intro items position b hitems h
    cases items with
    | broken fault => exact absurd h (by simp [Items.fields])
    | item t items =>
      obtain ⟨ha, hb⟩ := fields_item_eq_ok_iff.mp h
      obtain ⟨a', ha'⟩ := hc.settled hitems.1 ha
      obtain ⟨b', hb'⟩ := ih hitems.2 hb
      exact ⟨(a', b'), ha', hb'⟩
    | closed =>
      -- The list ends early, so all fields from here on must be allowed to be missing.
      obtain ⟨ha, hb⟩ := fields_closed_eq_ok_iff.mp h
      obtain ⟨a', ha'⟩ := habsent _ ha
      obtain ⟨b', hb'⟩ := ih hitems hb
      exact ⟨(a', b'), ha', hb'⟩

/-! ### What is written is read back -/

/-- Only the names of fields are written as keys. -/
theorem keys_encodeFields : ∀ {σ β : Type} {fields : Fields Codec σ β} {b : β}
    {ms : Keyed Value}, encodeFields fields b = some ms → ∀ k ∈ Keyed.keys ms, k ∈ fields.names
  | _, _, .done, b, ms, h => by
    obtain rfl := Option.some.inj h
    exact fun k hk => absurd hk List.not_mem_nil
  | _, _, .field name c absent omits rest, (a, b), ms, h => by
    rw [encodeFields] at h
    obtain ⟨ms', hms', h⟩ := Option.bind_eq_some_iff.mp h
    intro k hk
    -- The field is left out, or its member comes first.
    split at h
    · obtain rfl := Option.some.inj h
      exact List.mem_cons_of_mem _ (keys_encodeFields hms' k hk)
    · obtain ⟨v, -, h⟩ := Option.bind_eq_some_iff.mp h
      obtain rfl := Option.some.inj h
      rcases List.mem_cons.mp hk with rfl | hk
      · exact List.mem_cons_self
      · exact List.mem_cons_of_mem _ (keys_encodeFields hms' k hk)

/-- Members of other fields pass the slot of the first field by. -/
theorem fill_of_not_mem_keys {ms : Keyed Value} {slot : Option α} {slots : σ}
    (h : name ∉ Keyed.keys ms) :
    (membersTree ms).fill (Fields.field name c absent omits rest) depth (slot, slots)
      = ((membersTree ms).fill rest depth slots).map fun slots => (slot, slots) := by
  induction ms generalizing slots with
  | nil => rfl
  | cons m ms ih =>
    obtain ⟨k, v⟩ := m
    rw [Keyed.keys_cons, List.mem_cons, not_or] at h
    rw [membersTree, fill_member, fill_member, fillOne_of_ne h.1]
    -- The member belongs to another field or to none, and this one is not touched.
    cases rest.fillOne depth k v.tree slots with
    | none =>
      change (match v.tree.skip with | .ok () => _ | .error fault => _)
        = Except.map _ (match v.tree.skip with | .ok () => _ | .error fault => _)
      cases v.tree.skip with
      | ok _ => exact ih h.2
      | error fault => rfl
    | some filled =>
      cases filled with
      | ok slots' => exact ih h.2
      | error e => rfl

/-- The members that come back from the text of a record. -/
abbrev echoed (ms : Keyed Value) : Keyed Value :=
  ms.map fun m => (m.1, m.2.echo)

/-- **The members that a record is written as fill its slots**, as they come back. -/
theorem Lawful.fill_written {fields : Fields Codec σ β} (h : fields.Lawful depth Q) :
    fields.names.Nodup → ∀ {a b : β} {ms : Keyed Value}, Q a b → encodeFields fields a = some ms →
      nestingMembers ms ≤ depth → (∀ m ∈ ms, m.2.Proper)
        ∧ ∃ slots, (membersTree (echoed ms)).fill fields depth fields.empty = .ok slots
          ∧ fields.finish slots = .ok b := by
  induction h with
  | done =>
    rintro - a b ms - hms -
    obtain rfl := Option.some.inj hms
    exact ⟨by simp, (), rfl, rfl⟩
  | @field α β σ name c absent omits rest R Q hc _ homits _ ih =>
    rintro hnames ⟨a, a'⟩ ⟨b, b'⟩ ms ⟨hab, hab'⟩ hms hdepth
    obtain ⟨hname, hnames⟩ := List.nodup_cons.mp hnames
    rw [encodeFields] at hms
    obtain ⟨ms', hms', hms⟩ := Option.bind_eq_some_iff.mp hms
    have hkeys : name ∉ Keyed.keys (echoed ms') := by
      rw [Keyed.keys_map]
      exact fun hk => hname (keys_encodeFields hms' name hk)
    cases ha : omits a with
    | true =>
      -- Nothing is written, and the missing field takes the value.
      rw [ha] at hms
      obtain rfl := Option.some.inj hms
      obtain ⟨hproper, slots, hfill, hfinish⟩ := ih hnames hab' hms' hdepth
      refine ⟨hproper, (none, slots), ?_, ?_⟩
      · rw [empty, fill_of_not_mem_keys hkeys, hfill]
        rfl
      · exact finish_field_eq_ok_iff.mpr ⟨by rw [Option.none_or, homits a b hab ha], hfinish⟩
    | false =>
      rw [ha] at hms
      obtain ⟨v, hv, hms⟩ := Option.bind_eq_some_iff.mp hms
      obtain rfl := Option.some.inj hms
      obtain ⟨hfirst, hrest⟩ := max_le_iff.mp hdepth
      obtain ⟨hproper, slots, hfill, hfinish⟩ := ih hnames hab' hms' hrest
      obtain ⟨hv, hread⟩ := hc.reads hab hv hfirst
      -- The first member fills the first slot, and all others pass it by.
      refine ⟨List.forall_mem_cons.mpr ⟨hv, hproper⟩, (some b, slots), ?_, ?_⟩
      · rw [empty, echoed, List.map_cons, membersTree, fill_member, fillOne_self, hread]
        change (membersTree (echoed ms')).fill _ depth (some b, rest.empty) = _
        rw [fill_of_not_mem_keys hkeys, hfill]
        rfl
      · exact finish_field_eq_ok_iff.mpr ⟨Option.some_or, hfinish⟩

end Fields

/-! ### Records -/

namespace Json.Codec

variable {fields : Fields Codec σ β} {make : β → α} {split : α → β} {Q : β → β → Prop}
  {P : β → Prop}

/-- **A record is read** from an object whose members fill its slots, or from a list of its
fields. -/
theorem record_decode_eq_ok_iff {t : Tree} {a : α} :
    (record fields make split).decode depth t = .ok a ↔
      ∃ d b, depth = d + 1 ∧ a = make b
        ∧ ((∃ ms slots, t = .object ms ∧ ms.fill fields d fields.empty = .ok slots
            ∧ fields.finish slots = .ok b)
          ∨ ∃ items, t = .array items ∧ items.fields d fields 0 = .ok b) := by
  -- A record is an object with named fields, or a list of them in their order.
  cases t with
  | object ms =>
    simp only [record, enter_eq_ok_iff, bind_eq_ok, reduceCtorEq, false_and, exists_false, or_false,
      Tree.object.injEq]
    refine exists_congr fun d => ?_
    refine ⟨?_, ?_⟩
    · rintro ⟨rfl, slots, hslots, h⟩
      split at h
      · next b hb =>
        obtain rfl := Except.ok.inj h
        exact ⟨b, rfl, rfl, ms, slots, rfl, hslots, hb⟩
      · exact absurd h (by simp)
    · rintro ⟨b, rfl, rfl, _, slots, rfl, hslots, hb⟩
      exact ⟨rfl, slots, hslots, by rw [hb]; rfl⟩
  | array items =>
    simp only [record, enter_eq_ok_iff, bind_eq_ok, reduceCtorEq, false_and, exists_false, false_or,
      Tree.array.injEq]
    refine exists_congr fun d => ?_
    refine ⟨?_, ?_⟩
    · rintro ⟨rfl, b, hb, h⟩
      exact ⟨b, rfl, (Except.ok.inj h).symm, items, rfl, hb⟩
    · rintro ⟨b, rfl, rfl, _, rfl, hb⟩
      exact ⟨rfl, b, hb, rfl⟩
  | _ => simp [record]

/-- No record is written as null. -/
theorem record_neverNull : (record fields make split).NeverNull := by
  rintro a v hv rfl
  obtain ⟨ms, -, h⟩ := Option.map_eq_some_iff.mp hv
  exact absurd h (by simp)

/-- **A record reads back field by field.** -/
theorem record_lawful (hfields : ∀ d, depth = d + 1 → fields.Lawful d Q)
    (hnames : fields.names.Nodup) (hmake : ∀ a, make (split a) = a)
    (hsplit : ∀ b, split (make b) = b) :
    (record fields make split).Lawful depth fun a b => Q (split a) (split b) where
  settled := by
    intro t a ht ha
    obtain ⟨d, b, rfl, rfl, ⟨ms, slots, rfl, hslots, hb⟩ | ⟨items, rfl, hb⟩⟩ :=
      record_decode_eq_ok_iff.mp ha
    · -- The invariant of filling holds of empty slots and settles what is made of full ones.
      obtain ⟨S, hempty, hput, hfinish⟩ := (hfields d rfl).exists_invariant
      have hS := Fields.Lawful.settled_of_fill hput ht hempty hslots
      obtain ⟨b', hb'⟩ := hfinish _ _ hS hb
      exact ⟨make b', by rwa [hsplit, hsplit]⟩
    · obtain ⟨b', hb'⟩ := (hfields d rfl).settled_of_items ht hb
      exact ⟨make b', by rwa [hsplit, hsplit]⟩
  reads := by
    intro a b v hab hv hdepth
    obtain ⟨ms, hms, rfl⟩ := Option.map_eq_some_iff.mp hv
    obtain ⟨d, rfl, hle⟩ := depth_of_object hdepth
    obtain ⟨hproper, slots, hfill, hfinish⟩ := (hfields d rfl).fill_written hnames hab hms hle
    rw [Value.echo_object]
    exact ⟨.object hproper, record_decode_eq_ok_iff.mpr
      ⟨d, split b, rfl, (hmake b).symm, .inl ⟨_, slots, rfl, hfill, hfinish⟩⟩⟩

/-- A record comes back at the level above its fields. -/
theorem record_lawful_succ (hfields : fields.Lawful depth Q)
    (hnames : fields.names.Nodup) (hmake : ∀ a, make (split a) = a)
    (hsplit : ∀ b, split (make b) = b) :
    (record fields make split).Lawful (depth + 1) fun a b => Q (split a) (split b) := by
  refine record_lawful (fun d hd => ?_) hnames hmake hsplit
  obtain rfl := Nat.succ.inj hd
  exact hfields

/-- A record can be written if its fields can, one level deeper. -/
theorem record_writes (h : fields.Writes n P) :
    (record fields make split).Writes (n + 1) fun a => P (split a) := by
  intro a
  refine Iff.trans ?_ (h (split a))
  refine ⟨?_, ?_⟩
  · rintro ⟨v, hv, hle⟩
    obtain ⟨ms, hms, rfl⟩ := Option.map_eq_some_iff.mp hv
    exact ⟨ms, hms, Nat.le_of_succ_le_succ hle⟩
  · rintro ⟨ms, hms, hle⟩
    exact ⟨.object ms, Option.map_eq_some_iff.mpr ⟨ms, hms, rfl⟩, Nat.succ_le_succ hle⟩

end Json.Codec

end CompositeCrd
