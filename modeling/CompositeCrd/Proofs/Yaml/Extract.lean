import CompositeCrd.Proofs.Json.Whole
import CompositeCrd.Proofs.Yaml.Dynamic

/-!
# Reading a record in both notations

A record that is decoded from a JSON tree can be read from what the tree looks like in YAML, and
the two results differ only in texts with line breaks (`Codec.Agrees`). YAML is stricter on one
point: a record must have its fields by name, and an enumeration's value must be a text, where
JSON also takes a list of the fields and an object with the spelling as its key. So agreement is
about trees that are written in a certain way.

There is one lemma for each kind of codec. A record agrees if its fields do (`Fields.Agree`),
since a key is the same on both sides whenever it is the name of a field.
-/

namespace CompositeCrd

open Json Json.Codec
open Yaml (Extract Folded spaceless)

variable {α β σ : Type} {depth : Nat}

/-! ### Parts of a tree -/

namespace Json

/-- Whether all items are written like this. -/
def Items.all (p : Tree → Bool) : Items → Bool
  | .item t rest => p t && rest.all p
  | _ => true

/-- Whether all members are written like this. -/
def Members.all (p : String → Tree → Bool) : Members → Bool
  | .member (some k) t rest => p k t && rest.all p
  | .member none _ rest => rest.all p
  | _ => true

/-- Whether there is a text. -/
def Tree.isText : Tree → Bool
  | .string _ => true
  | _ => false

/-- Whether there is an object whose members are written like this. -/
def Tree.byName (p : String → Tree → Bool) : Tree → Bool
  | .object ms => ms.all p
  | _ => false

/-- Whether the items are written like this, if there is a list. -/
def Tree.lists (p : Tree → Bool) : Tree → Bool
  | .array items => items.all p
  | _ => true

end Json

/-- The texts differ at most in their line breaks. -/
def SameText (s s' : String) : Prop :=
  Folded s.toList s'.toList

/-! ### Codecs -/

namespace Json.Codec

/-- **What the codec decodes from a tree that is written like `p`, is read from what the tree
looks like**, up to `R`. -/
def Agrees (c : Codec α) (e : Extract α) (p : Tree → Bool) (R : α → α → Prop) : Prop :=
  ∀ ⦃depth t v a⦄, c.decode depth t = .ok a → p t = true → t.Seen v →
    ∃ b, e.read v = some b ∧ R a b

variable {c : Codec α} {e : Extract α} {p : Tree → Bool} {R : α → α → Prop}

/-- A text is extracted as it was decoded, but for the folding of its lines. -/
theorem text_agrees : text.Agrees ⟨Extract.textOf⟩ p SameText := by
  intro depth t v a ha _ hv
  cases t with
  | string s =>
    obtain ⟨t, text', rfl, hfolded, rfl⟩ := hv
    obtain rfl := Except.ok.inj ha
    refine ⟨String.ofList text', rfl, ?_⟩
    rw [SameText, String.toList_ofList, String.toList_ofList]
    exact hfolded
  | _ => exact absurd ha (by simp [text, Tree.text])

/-- The spelling of an enumeration's value is the same text on both sides. -/
theorem spelled_agrees [Spelled α]
    (hspell : ∀ a : α, spaceless (Spelled.spell a).toList = true) :
    (spelled : Codec α).Agrees ⟨Extract.spelledOf⟩ Tree.isText (· = ·) := by
  intro depth t v a ha ht hv
  obtain ⟨s, rfl⟩ : ∃ s, t = .string s := by
    cases t with
    | string s => exact ⟨s, rfl⟩
    | _ => exact absurd ht (by simp [Tree.isText])
  obtain ⟨t, text', rfl, hfolded, rfl⟩ := hv
  -- A spelling has no white space, so folding neither makes nor breaks one.
  have hsame : (Spelled.ofText? (String.ofList text') : Option α)
      = Spelled.ofText? (String.ofList t) := by
    unfold Spelled.ofText?
    congr 1
    funext a
    rw [Bool.eq_iff_iff, beq_iff_eq, beq_iff_eq, eq_comm, ← key_eq_iff hfolded (hspell a), eq_comm]
  refine ⟨a, ?_, rfl⟩
  -- Decoding has found the variant, so extracting finds it.
  change Spelled.ofText? (String.ofList text') = some a
  change Json.variant (String.ofList t) = .ok a at ha
  rw [hsame]
  unfold Json.variant at ha
  split at ha
  · next a' ha' => rw [ha', Except.ok.inj ha]
  · exact absurd ha (by simp)

/-- What is not null is read as what it is. -/
theorem nullable_read_of_ne {v : Yaml.Dynamic} (hv : v ≠ .plain .null) :
    e.nullable.read v = (e.read v).map some := by
  unfold Extract.nullable
  dsimp only
  split
  · exact absurd rfl hv
  · rfl

/-- Nothing is nothing on both sides. -/
theorem nullable_agrees (h : c.Agrees e p R) (hnull : e.read (.plain .null) = none) :
    (nullable c).Agrees e.nullable p (Option.Rel R) := by
  intro depth t v a ha ht hv
  -- What is `null` is none, whatever else could be read.
  by_cases htree : t = .null
  · subst htree
    obtain rfl := hv
    obtain rfl := Except.ok.inj ha
    exact ⟨none, rfl, .none⟩
  · change t.optional _ = _ at ha
    rw [optional_of_ne_null _ htree] at ha
    obtain ⟨a₁, ha₁, rfl⟩ := map_eq_ok.mp ha
    obtain ⟨b, hb, hab⟩ := h ha₁ ht hv
    have hv' : v ≠ .plain .null := by
      rintro rfl
      exact absurd (hnull.symm.trans hb) (by simp)
    exact ⟨some b, by rw [nullable_read_of_ne hv', hb]; rfl, .some hab⟩

/-- Items are extracted as they were decoded, one by one. -/
theorem items_agree (h : c.Agrees e p R) : ∀ {items : Items} {vs : List Yaml.Dynamic}
    {as : List α}, items.decode (c.decode depth) = .ok as → items.all p = true → items.Seen vs →
    ∃ bs, vs.mapM e.read = some bs ∧ List.Forall₂ R as bs
  | .closed, vs, as, ha, _, hvs => by
    obtain rfl := hvs
    obtain rfl := Except.ok.inj ha
    exact ⟨[], rfl, .nil⟩
  | .broken f, vs, as, ha, _, hvs => hvs.elim
  | .item t rest, vs, as, ha, hall, hvs => by
    obtain ⟨v, vs, rfl, hv, hvs⟩ := hvs
    obtain ⟨a, as, rfl, ha, has⟩ := Items.decode_item_eq_ok_iff.mp ha
    obtain ⟨ht, hrest⟩ := Bool.and_eq_true_iff.mp hall
    -- The first item, then the others.
    obtain ⟨b, hb, hab⟩ := h ha ht hv
    obtain ⟨bs, hbs, habs⟩ := items_agree h has hrest hvs
    refine ⟨b :: bs, ?_, .cons hab habs⟩
    rw [List.mapM_cons, hb, hbs]
    rfl

/-- So are lists. -/
theorem list_agrees (h : c.Agrees e p R) :
    (list c).Agrees e.list (Tree.lists p) (List.Forall₂ R) := by
  intro depth t v as ha ht hv
  obtain ⟨items, depth, rfl, rfl, ha⟩ := list_decode_eq_ok_iff.mp ha
  obtain ⟨vs, rfl, hvs⟩ := hv
  exact items_agree h ha ht hvs

end Json.Codec

/-! ### Records -/

namespace Fields

/-- **Fields that agree**, each written as `p` says for its name: what is in their slots is
related by `S`, and the records by `Q`. -/
inductive Agree (p : String → Tree → Bool) : {σ β : Type} → Fields Codec σ β → Fields Extract σ β →
    (S : σ → σ → Prop) → (Q : β → β → Prop) → Prop
  | done : Agree p .done .done (fun _ _ => True) (fun _ _ => True)
  | field {α β σ : Type} {name : String} {c : Codec α} {e : Extract α} {absent : Option α}
    {omits omits' : α → Bool} {f : Fields Codec σ β} {g : Fields Extract σ β}
    {R : α → α → Prop} {S : σ → σ → Prop} {Q : β → β → Prop}
    (codec : c.Agrees e (p name) R) (name_spaceless : spaceless name.toList = true)
    (absent_agrees : Option.Rel R absent absent) (others : Agree p f g S Q) :
    Agree p (.field name c absent omits f) (.field name e absent omits' g)
      (fun s s' => Option.Rel R s.1 s'.1 ∧ S s.2 s'.2) (fun b b' => R b.1 b'.1 ∧ Q b.2 b'.2)

/-- Fills the slot of the field `k` with what is read from `v`, if there is one. -/
def readOne (g : Fields Extract σ β) (k : String) (v : Yaml.Dynamic) (slots : σ) :
    Option (Option σ) :=
  g.put (m := Option) (fun e => e.read v) (fun _ => none) k slots

section

variable {name : String} {e : Extract α} {absent : Option α} {omits : α → Bool}
  {rest : Fields Extract σ β} {v : Yaml.Dynamic} {slots : σ}

/-- A field is filled by its own name. -/
theorem readOne_self : (Fields.field name e absent omits rest).readOne name v (none, slots)
    = some ((e.read v).map fun b => (some b, slots)) := by
  rw [readOne, put, if_pos rfl]
  cases e.read v <;> rfl

/-- Another name is left to the other fields. -/
theorem readOne_of_ne {k : String} {slot : Option α} (h : name ≠ k) :
    (Fields.field name e absent omits rest).readOne k v (slot, slots)
      = (rest.readOne k v slots).map fun filled => filled.map fun slots => (slot, slots) := by
  rw [readOne, put, if_neg h, readOne]
  congr 1
  funext filled
  cases filled <;> rfl

end

namespace Agree

variable {p : String → Tree → Bool} {f : Fields Codec σ β} {g : Fields Extract σ β}
  {S : σ → σ → Prop} {Q : β → β → Prop} {slots slots' slots₂ : σ} {k text : List Char} {t : Tree}
  {v : Yaml.Dynamic}

/-- Before any member is read, both sides have nothing. -/
theorem empty (h : Agree p f g S Q) : S f.empty g.empty := by
  induction h with
  | done => trivial
  | field _ _ _ _ ih => exact ⟨.none, ih⟩

/-- A member that fills a slot fills the same slot on both sides. -/
theorem fillOne (h : Agree p f g S Q) (hk : Folded k text) (ht : p (String.ofList k) t = true)
    (hv : t.Seen v) (hslots : S slots slots₂)
    (hfill : f.fillOne depth (String.ofList k) t slots = some (.ok slots')) :
    ∃ slots₂', g.readOne (String.ofList text) v slots₂ = some (some slots₂')
      ∧ S slots' slots₂' := by
  induction h with
  | done => exact absurd hfill (by simp [Fields.fillOne, put])
  | @field _ _ _ name c e absent omits omits' f g R S Q hc hname habsent h ih =>
    obtain ⟨slot, slots⟩ := slots
    obtain ⟨slot', slots'⟩ := slots'
    obtain ⟨slot₂, slots₂⟩ := slots₂
    obtain ⟨hslot, hrest⟩ := hslots
    have hkey := key_eq_iff hk hname
    obtain ⟨heq, rfl, rfl, a, ha, rfl⟩ | ⟨hne, rfl, hfilled⟩ := fillOne_field_eq_ok_iff.mp hfill
    · -- The member is the one of this field, which had not been filled before.
      rw [← heq] at ht
      rw [hkey.mp heq.symm]
      cases hslot
      obtain ⟨b, hb, hab⟩ := hc ha ht hv
      exact ⟨(some b, slots₂), by rw [readOne_self, hb]; rfl, .some hab, hrest⟩
    · -- The member is one of the other fields.
      obtain ⟨slots₂', hslots₂', hS⟩ := ih hrest hfilled
      refine ⟨(slot₂, slots₂'), ?_, hslot, hS⟩
      rw [readOne_of_ne fun h => hne (hkey.mpr h.symm).symm, hslots₂']
      rfl

/-- A member of no field is one on both sides. -/
theorem fillOne_eq_none (h : Agree p f g S Q) (hk : Folded k text)
    (hfill : f.fillOne depth (String.ofList k) t slots = none) :
    g.readOne (String.ofList text) v slots₂ = none := by
  induction h with
  | done => rfl
  | @field _ _ _ name c e absent omits omits' f g R S Q hc hname habsent h ih =>
    obtain ⟨slot, slots⟩ := slots
    obtain ⟨slot₂, slots₂⟩ := slots₂
    -- The name is not that of this field, nor that of another.
    obtain ⟨hne, hfill⟩ := fillOne_field_eq_none_iff.mp hfill
    rw [readOne_of_ne fun h => hne ((key_eq_iff hk hname).mpr h.symm).symm, ih hfill]
    rfl

/-- The first entry is read into its field, or passed over if it has none. -/
theorem fill_cons {es : List (Yaml.Dynamic × Yaml.Dynamic)} {s : String} :
    Extract.fill g ((.text s, v) :: es) slots = match g.readOne s v slots with
      | some filled => filled.bind (Extract.fill g es)
      | none => Extract.fill g es slots :=
  rfl

/-- The members of an object fill the same slots on both sides. -/
theorem fill (h : Agree p f g S Q) : ∀ {ms : Members} {es : List (Yaml.Dynamic × Yaml.Dynamic)}
    {slots slots' slots₂ : σ}, ms.fill f depth slots = .ok slots' → ms.all p = true → ms.Seen es →
    S slots slots₂ → ∃ slots₂', Extract.fill g es slots₂ = some slots₂' ∧ S slots' slots₂'
  | .closed, es, slots, slots', slots₂, hfill, _, hes, hslots => by
    obtain rfl := hes
    obtain rfl := Except.ok.inj hfill
    exact ⟨slots₂, rfl, hslots⟩
  | .broken _, es, slots, slots', slots₂, hfill, _, hes, hslots => hes.elim
  | .noKey _, es, slots, slots', slots₂, hfill, _, hes, hslots => hes.elim
  | .badKey _ _, es, slots, slots', slots₂, hfill, _, hes, hslots => hes.elim
  | .member key t rest, es, slots, slots', slots₂, hfill, hall, hes, hslots => by
    obtain ⟨k, text, v, es', rfl, rfl, hfolded, hv, hes'⟩ := hes
    obtain ⟨ht, hrest⟩ := Bool.and_eq_true_iff.mp hall
    rw [fill_cons]
    obtain ⟨_, ⟨⟩, ⟨slots₁, hfilled, hmore⟩ | ⟨hnone, -, hmore⟩⟩ := fill_member_eq_ok_iff.mp hfill
    · -- The member has a field, or neither side takes notice of it.
      obtain ⟨slots₂', hslots₂', hS⟩ := h.fillOne hfolded ht hv hslots hfilled
      rw [hslots₂']
      exact h.fill hmore hrest hes' hS
    · rw [h.fillOne_eq_none hfolded hnone]
      exact h.fill hmore hrest hes' hslots

/-- The records in the slots. -/
theorem finish (h : Agree p f g S Q) {b : β} (hslots : S slots slots₂)
    (hb : f.finish slots = .ok b) : ∃ b₂, g.finish slots₂ = .ok b₂ ∧ Q b b₂ := by
  induction h with
  | done => exact ⟨(), rfl, trivial⟩
  | @field _ _ _ name c e absent omits omits' f g R S Q hc hname habsent h ih =>
    obtain ⟨slot, slots⟩ := slots
    obtain ⟨slot₂, slots₂⟩ := slots₂
    obtain ⟨hslot, hrest⟩ := hslots
    -- A field that was not given has the same default on both sides.
    have hor : Option.Rel R (slot.or absent) (slot₂.or absent) := by
      cases hslot with
      | none => exact habsent
      | some hab => exact .some hab
    obtain ⟨ha, hb⟩ := finish_field_eq_ok_iff.mp hb
    obtain ⟨b₂, hb₂, hQ⟩ := ih hrest hb
    rw [ha] at hor
    generalize ha₂ : slot₂.or absent = a₂ at hor
    cases hor with
    | some hab => exact ⟨(_, b₂), finish_field_eq_ok_iff.mpr ⟨ha₂, hb₂⟩, hab, hQ⟩

end Agree

end Fields

namespace Json.Codec

/-- A record is extracted as it was decoded when its fields are. -/
theorem record_agrees {p : String → Tree → Bool} {f : Fields Codec σ β} {g : Fields Extract σ β}
    {S : σ → σ → Prop} {Q : β → β → Prop} {R : α → α → Prop} {make : β → α} {split : α → β}
    (h : Fields.Agree p f g S Q) (hmake : ∀ b b', Q b b' → R (make b) (make b')) :
    (record f make split).Agrees (Extract.record g make) (Tree.byName p) R := by
  intro depth t v a ha ht hv
  obtain ⟨ms, rfl⟩ : ∃ ms, t = .object ms := by
    cases t with
    | object ms => exact ⟨ms, rfl⟩
    | _ => exact absurd ht (by simp [Tree.byName])
  obtain ⟨es, rfl, hes⟩ := hv
  obtain ⟨depth, b, rfl, rfl, ⟨_, slots, ⟨⟩, hslots, hb⟩ | ⟨_, ⟨⟩, -⟩⟩ :=
    record_decode_eq_ok_iff.mp ha
  -- First the fields are filled, then the record is made of them.
  obtain ⟨slots₂, hslots₂, hS⟩ := h.fill hslots ht hes h.empty
  obtain ⟨b₂, hb₂, hQ⟩ := h.finish hS hb
  refine ⟨make b₂, ?_, hmake b b₂ hQ⟩
  change Option.bind (Extract.fill g es g.empty) _ = _
  rw [hslots₂, Option.bind_some, hb₂]
  rfl

end Json.Codec

end CompositeCrd
