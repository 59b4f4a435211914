import CompositeCrd.Proofs.Schema.Regular

/-!
# Nodes by way of their value

Embedding a document keeps its value only: members are sorted, and of repeated ones the last is
left. A node that is read from the document is read from this value as well (`Tree.rereads`), so
nothing that was dropped has counted.

The invariant of the members is `SoFar`: the members that have been read make a node on the one
hand and a table of values on the other, and every slot of the node is what its member in the
table is read as. For property trees the two tables go side by side (`Keyed.forall₂_insert`).
-/

namespace CompositeCrd.Schema

open Json

variable {α β : Type} {s n : Schema} {kw : Keyword} {depth : Nat} {k : String} {t : Tree}
  {v : Value} {m m' : Keyed Value}

/-- What `f` reads from the tree it reads from the value of the tree too. -/
def ReadsAlike (depth : Nat) (t : Tree) (f : Tree → Decoded α) : Prop :=
  ∀ ⦃a⦄, f t = .ok a → ∃ w, t.value depth = .ok w ∧ f w.tree = .ok a

namespace ReadsAlike

variable {f : Tree → Decoded α}

/-- What a tree is read as, its value is read as. -/
theorem of_value (h : ReadsAlike depth t f) {a : α} (ha : f t = .ok a)
    (hv : t.value depth = .ok v) : f v.tree = .ok a := by
  obtain ⟨w, hw, hread⟩ := h ha
  obtain rfl := Except.ok.inj (hv.symm.trans hw)
  exact hread

/-- A reading that is changed afterwards is still read alike. -/
theorem map (h : ReadsAlike depth t f) (g : α → β) : ReadsAlike depth t fun t => (f t).map g := by
  intro b hb
  obtain ⟨a, ha, rfl⟩ := map_eq_ok.mp hb
  obtain ⟨w, hw, hread⟩ := h ha
  exact ⟨w, hw, map_eq_ok.mpr ⟨a, hread, rfl⟩⟩

/-- A value is `null` exactly when its tree is. -/
theorem optional {F : Tree → Tree → Decoded α} (h : ReadsAlike depth t fun t => F t t) :
    ReadsAlike depth t fun t => t.optional (F t) := by
  intro a ha
  -- A tree other than `null` has a value other than `null`, so it is present on both sides.
  by_cases ht : t = .null
  · subst ht
    exact ⟨.null, by rw [Tree.value], ha⟩
  · have ha : t.optional (F t) = .ok a := ha
    rw [optional_of_ne_null _ ht] at ha
    obtain ⟨b, hb, rfl⟩ := map_eq_ok.mp ha
    obtain ⟨w, hw, hread⟩ := h hb
    have hread : F w.tree w.tree = .ok b := hread
    refine ⟨w, hw, ?_⟩
    change w.tree.optional (F w.tree) = .ok (some b)
    rw [optional_of_ne _ (value_ne_null ht hw), hread]
    rfl

/-- A text is read alike. -/
theorem text : ReadsAlike depth t Tree.text := by
  intro a ha
  unfold Tree.text at ha
  split at ha
  · next s => exact ⟨.string s, by rw [Tree.value], ha⟩
  · exact absurd ha (by simp)

theorem flag : ReadsAlike depth t Tree.flag := by
  intro a ha
  unfold Tree.flag at ha
  split at ha
  · next b => exact ⟨.bool b, by rw [Tree.value], ha⟩
  · exact absurd ha (by simp)

/-- A value is read once more as it is. -/
theorem value (ht : t.Proper) : ReadsAlike depth t (Tree.value depth) := by
  intro v hv
  have hcanonical := Tree.value_canonical ht hv
  refine ⟨v, hv, ?_⟩
  rw [value_tree (Tree.nesting_of_value hv), hcanonical.sorted_eq]

/-- Items are when each of them is. -/
theorem items (h : ∀ t : Tree, t.Proper → ReadsAlike depth t f) :
    ∀ {items : Items} {as : List α}, items.Proper → items.decode f = .ok as →
      ∃ vs, items.values depth = .ok vs ∧ (itemsTree vs).decode f = .ok as
  | .closed, as, _, has => ⟨[], by rw [Items.values], has⟩
  | .broken _, as, _, has => absurd has (by simp [Items.decode])
  | .item t rest, as, ht, has => by
    obtain ⟨a, as, rfl, ha, has⟩ := Items.decode_item_eq_ok_iff.mp has
    obtain ⟨w, hw, hread⟩ := h t ht.1 ha
    obtain ⟨vs, hvs, hreads⟩ := items h ht.2 has
    exact ⟨w :: vs, Items.values_item_eq_ok_iff.mpr ⟨w, vs, rfl, hw, hvs⟩,
      Items.decode_item_eq_ok_iff.mpr ⟨a, as, rfl, hread, hreads⟩⟩

/-- A list is when its items are. -/
theorem list {f : Nat → Tree → Decoded α} (h : ∀ depth (t : Tree), t.Proper →
    ReadsAlike depth t (f depth)) (ht : t.Proper) :
    ReadsAlike depth t fun t => t.list depth f := by
  intro as has
  obtain ⟨items, depth, rfl, rfl, has⟩ := Tree.list_eq_ok_iff.mp has
  obtain ⟨vs, hvs, hreads⟩ := ReadsAlike.items (h depth) ht has
  exact ⟨.array vs, Tree.value_array_eq_ok_iff.mpr ⟨depth, vs, rfl, rfl, hvs⟩,
    Tree.list_eq_ok_iff.mpr ⟨_, depth, rfl, rfl, hreads⟩⟩

/-- A value in one of two shapes is read in the same shape once more, if no value has both. -/
theorem oneOf {γ : Type} {f : Tree → Decoded α} {f' : Tree → Decoded β} {g : α → γ} {g' : β → γ}
    (ht : t.Proper) (h : ReadsAlike depth t f) (h' : ReadsAlike depth t f')
    (hapart : ∀ {v : Value} {b : β}, f' v.tree = .ok b → ∃ e, f v.tree = .error e) :
    ReadsAlike depth t fun t =>
      t.value depth >>= fun _ => orNoAlternative [(f t).map g, (f' t).map g'] := by
  intro c hc
  obtain ⟨w, hw, hshape⟩ := bind_eq_ok.mp hc
  have hvalue : w.tree.value depth = .ok w := (ReadsAlike.value ht).of_value hw hw
  refine ⟨w, hw, ?_⟩
  dsimp only
  rw [hvalue, ok_bind]
  -- The shape that fits the tree fits the value, and no shape in front of it does.
  obtain ⟨a, ha, rfl⟩ | ⟨b, hb, rfl⟩ := orNoAlternative_eq_ok hshape
  · rw [h.of_value ha hw]
    rfl
  · have hread := h'.of_value hb hw
    obtain ⟨e, he⟩ := hapart hread
    rw [he, hread]
    rfl

end ReadsAlike

/-- What is read from the tree as a node, as a list of nodes or as a property tree is read from
its value too. -/
structure Rereads (t : Tree) : Prop where
  node : ∀ depth, ReadsAlike depth t (ofTree depth)
  list : ∀ depth, ReadsAlike depth t (listOfTree depth)
  tree : ∀ depth, ReadsAlike depth t (tableOfTree depth)

/-! ### Slots -/

/-- Only a list is read as a list of nodes, and a list is no node. -/
theorem ofTree_error_of_listOfTree {ss : List Schema} (h : listOfTree depth v.tree = .ok ss) :
    ∃ e, ofTree depth v.tree = .error e := by
  cases v with
  | array vs => exact ⟨_, rfl⟩
  | _ => exact absurd h (by simp [Value.tree, listOfTree])

/-- Only an object is read as a node, and an object is no truth value. -/
theorem flag_error_of_ofTree (h : ofTree depth v.tree = .ok n) : ∃ e, v.tree.flag = .error e := by
  cases v with
  | object ms => exact ⟨_, rfl⟩
  | _ => exact absurd h (by simp [Value.tree, ofTree])

/-- A rule for items is read alike: it is a schema or a list of them. -/
theorem Rereads.itemRule (h : Rereads t) (ht : t.Proper) :
    ReadsAlike depth t fun t => itemsOf depth t (readings t) :=
  .oneOf ht (h.node depth) (h.list depth) ofTree_error_of_listOfTree

/-- So is a rule for further properties: it is a truth value or a schema. -/
theorem Rereads.additionalRule (h : Rereads t) (ht : t.Proper) :
    ReadsAlike depth t fun t => additionalOf depth t (readings t) :=
  .oneOf ht .flag (h.node depth) flag_error_of_ofTree

/-- **A slot is read from the value of its member too.** -/
theorem Rereads.slot (h : Rereads t) (ht : t.Proper) (kw : Keyword) :
    ReadsAlike depth t fun t => kw.read depth t (readings t) := by
  cases kw with
  | type | description | format => exact .optional (F := fun _ => Tree.text) .text
  -- Where a slot may be missing, so may its value; else the reader of the slot is used.
  | properties =>
    exact .map (.optional (F := fun t _ => tableOfTree depth t) (h.tree depth)) _
  | required =>
    exact .map (.optional (F := fun _ t => t.list depth fun _ t => t.text)
      (.list (fun _ _ _ => .text) ht)) _
  | items => exact .optional (F := fun t t' => itemsOf depth t' (readings t)) (h.itemRule ht)
  | additionalProperties =>
    exact .optional (F := fun t t' => additionalOf depth t' (readings t)) (h.additionalRule ht)
  | enumValues =>
    exact .map (.optional (F := fun _ t => t.list depth Tree.value)
      (.list (fun _ _ => .value) ht)) _
  | default => exact .optional (F := fun _ => Tree.value depth) (.value ht)
  | nullable => exact .map (.optional (F := fun _ => Tree.flag) .flag) _
  | preserveUnknownFields => exact .optional (F := fun _ => Tree.flag) .flag

/-- An entry of a table is a schema or nothing. -/
theorem Rereads.entry (h : Rereads t) : ReadsAlike depth t (readEntry depth) := by
  intro s hs
  by_cases ht : t = .null
  · subst ht
    exact ⟨.null, by rw [Tree.value], hs⟩
  · rw [readEntry_of_ne ht] at hs
    obtain ⟨w, hw, hread⟩ := h.node depth hs
    have hne : w.tree ≠ .null := by
      intro hnull
      rw [hnull] at hread
      exact absurd hread (by simp [ofTree])
    exact ⟨w, hw, (readEntry_of_ne hne).trans hread⟩

/-! ### Members -/

/-- The node `s` and the table `m` come from the same members: each slot is what its member is
read as, and the other members are kept. -/
structure SoFar (depth : Nat) (s : Schema) (m : Keyed Value) : Prop where
  slots : ∀ kw, ReadsSlot depth {} s kw (Keyed.find? (Spelled.spell kw) m)
  others : ∀ k, Spelled.ofText? k = (none : Option Keyword) →
    Keyed.find? k s.extra = Keyed.find? k m

/-- The blank schema is what no members are read as. -/
theorem soFar_blank : SoFar depth {} [] where
  slots _ := rfl
  others _ _ := rfl

/-- One more member that fills a slot. It may take the place of one before it. -/
theorem SoFar.put (h : SoFar depth s m) {a : kw.Slot}
    (ha : kw.read depth v.tree (readings v.tree) = .ok a) :
    SoFar depth (s.put kw a) (m.insert (Spelled.spell kw) v) where
  slots := by
    intro kw'
    rw [Keyed.find?_insert]
    -- The keyword that is put has its new value, the others have theirs.
    by_cases hkw : kw' = kw
    · subst hkw
      rw [if_pos rfl, ReadsSlot, get_put]
      exact ha
    · rw [if_neg fun heq => hkw (Keyword.spell_injective heq.symm)]
      have hslot := h.slots kw'
      unfold ReadsSlot at hslot ⊢
      rwa [get_put_of_ne hkw]
  others := by
    intro k hk
    -- A key without a slot is not the spelling of one.
    have hne : Spelled.spell kw ≠ k := by
      rintro rfl
      exact absurd (hk.symm.trans kw.ofText?_spell) (by simp)
    rw [extra_put, Keyed.find?_insert, if_neg hne, h.others k hk]

/-- One more member that goes to the others. -/
theorem SoFar.insert (h : SoFar depth s m) (hk : Spelled.ofText? k = (none : Option Keyword)) :
    SoFar depth { s with extra := Keyed.insert k v s.extra } (m.insert k v) where
  slots := by
    intro kw
    have hne : k ≠ Spelled.spell kw := by
      rintro rfl
      exact absurd (hk.symm.trans kw.ofText?_spell) (by simp)
    have hslot := h.slots kw
    rw [Keyed.find?_insert, if_neg hne]
    unfold ReadsSlot at hslot ⊢
    rwa [get_extra]
  others := by
    intro k' hk'
    rw [Keyed.find?_insert, Keyed.find?_insert, h.others k' hk']

/-- **The node can be read from the table**, once the table holds canonical values and the other
members of the node are in order. -/
theorem SoFar.ofMembers (h : SoFar depth n m) (hn : n.Regular) (hm : m.Sorted)
    (hvalues : ∀ e ∈ m, e.2.Canonical) (hdepth : ∀ e ∈ m, e.2.nesting ≤ depth) :
    ofMembers depth {} [] (membersTree m) = .ok n := by
  refine (ofMembers_eq_ok_iff (nestingMembers_le_iff.mpr hdepth)).mpr
    ⟨by simp, nodup_named hm.nodup, h.slots, ?_⟩
  have hothers : Keyed.Sorted (sortedMembers [] (unnamed m)) := by
    rw [sortedMembers_eq]
    exact Keyed.sorted_nil.overlay
  refine hn.sound.extra.ext hothers fun k => ?_
  cases hk : (Spelled.ofText? k : Option Keyword) with
  | none =>
    rw [h.others k hk, find?_sortedMembers_unnamed hm.nodup hk]
    cases hfind : Keyed.find? k m with
    | none => rfl
    | some v => exact congrArg some (hvalues _ (Keyed.mem_of_find? hfind)).sorted_eq.symm
  | some kw =>
    -- A keyword is among the other members of neither.
    have hnone : ∀ extra, Unnamed extra → Keyed.find? k extra = none := by
      intro extra hextra
      refine Keyed.find?_eq_none_iff.mpr fun hmem => ?_
      exact absurd ((hextra k hmem).symm.trans hk) (by simp)
    rw [hnone _ hn.sound.unnamed, hnone _ (unnamed_sortedMembers m)]

/-! ### Trees -/

mutual

/-- **What is read as a node is read as the same node from its value**, at any depth, and so for
lists of nodes and property trees. -/
theorem Tree.rereads : ∀ {t : Tree}, t.Proper → Rereads t
  | .object ms, ht => by
    refine ⟨fun depth n h => ?_, fun depth ss h => ?_, fun depth p h => ?_⟩
    · have hregular := (Tree.readsRegular (t := .object ms) ht).node h
      obtain ⟨_, depth, ⟨⟩, rfl, h⟩ := ofTree_eq_ok_iff.mp h
      obtain ⟨m, hm, hsofar⟩ := (Members.rereads ht).1 soFar_blank h
      obtain ⟨hsorted, hvalues⟩ := Members.values_canonical ht Keyed.sorted_nil (by simp) hm
      have hdepth := Members.nesting_of_values (by simp) hm
      -- What was said of the members one by one is said of the whole table now.
      refine ⟨.object m, Tree.value_object_eq_ok_iff.mpr ⟨depth, m, rfl, rfl, hm⟩, ?_⟩
      exact hsofar.ofMembers hregular hsorted hvalues hdepth
    · exact absurd h (by simp [listOfTree])
    · have hregular := (Tree.readsRegular (t := .object ms) ht).tree h
      obtain ⟨_, depth, ⟨⟩, rfl, h⟩ := tableOfTree_eq_ok_iff.mp h
      obtain ⟨m, hm, hentries⟩ := (Members.rereads ht).2 .nil h
      refine ⟨.object m, Tree.value_object_eq_ok_iff.mpr ⟨depth, m, rfl, rfl, hm⟩, ?_⟩
      exact tableOfMembers_eq_ok_iff.mpr ⟨p, hentries, hregular.1.overlay_nil.symm⟩
  | .array items, ht => by
    refine ⟨fun depth n h => ?_, fun depth ss h => ?_, fun depth p h => ?_⟩
    · exact absurd h (by simp [ofTree])
    · obtain ⟨_, depth, ⟨⟩, rfl, h⟩ := listOfTree_eq_ok_iff.mp h
      obtain ⟨vs, hvs, hread⟩ := Items.rereads ht h
      refine ⟨.array vs, Tree.value_array_eq_ok_iff.mpr ⟨depth, vs, rfl, rfl, hvs⟩, ?_⟩
      exact listOfItems_eq_ok_iff.mpr hread
    · exact absurd h (by simp [tableOfTree])
  | .null, _ | .bool _, _ | .number _, _ | .string _, _ | .broken _ _, _ => by
    refine ⟨fun depth n h => ?_, fun depth ss h => ?_, fun depth p h => ?_⟩
    · exact absurd h (by simp [ofTree])
    · exact absurd h (by simp [listOfTree])
    · exact absurd h (by simp [tableOfTree])

/-- Items are read as schemas one by one. -/
theorem Items.rereads : ∀ {items : Items}, items.Proper → ∀ {depth : Nat} {ss : List Schema},
    listOfItems depth items = .ok ss →
      ∃ vs, items.values depth = .ok vs
        ∧ List.Forall₂ (fun v s => ofTree depth v.tree = .ok s) vs ss
  | .closed, _, depth, ss, h => by
    rw [listOfItems] at h
    obtain rfl := Except.ok.inj h
    exact ⟨[], by rw [Items.values], .nil⟩
  | .broken f, _, depth, ss, h => by
    rw [listOfItems] at h
    exact absurd h (by simp)
  | .item t rest, ht, depth, ss, h => by
    obtain ⟨s, ss, rfl, hs, hss⟩ := listOfItems_item_eq_ok_iff.mp h
    obtain ⟨v, hv, hread⟩ := (Tree.rereads ht.1).node depth hs
    obtain ⟨vs, hvs, hreads⟩ := Items.rereads ht.2 hss
    exact ⟨v :: vs, Items.values_item_eq_ok_iff.mpr ⟨v, vs, rfl, hv, hvs⟩, .cons hread hreads⟩

/-- Members read from the left, as a schema or as a table: what they have been read as so far,
their values are read as. -/
theorem Members.rereads : ∀ {ms : Members}, ms.Proper →
    (∀ {depth : Nat} {s : Schema} {seen : List Keyword} {m : Keyed Value} {n : Schema},
      SoFar depth s m → ofMembers depth s seen ms = .ok n →
        ∃ m', ms.values depth m = .ok m' ∧ SoFar depth n m')
    ∧ ∀ {depth : Nat} {p p' : PropertyTree} {m : Keyed Value},
      List.Forall₂ (fun e e' => e'.1 = e.1 ∧ readEntry depth e.2.tree = .ok e'.2) m p →
        tableOfMembers depth p ms = .ok p' →
          ∃ m', ms.values depth m = .ok m' ∧
            List.Forall₂ (fun e e' => e'.1 = e.1 ∧ readEntry depth e.2.tree = .ok e'.2) m' p'
  | .closed, _ => by
    refine ⟨fun {_ _ _ m _} hs h => ?_, fun {_ _ _ m} hp h => ?_⟩
    · rw [ofMembers] at h
      exact ⟨m, by rw [Members.values], Except.ok.inj h ▸ hs⟩
    · rw [tableOfMembers] at h
      exact ⟨m, by rw [Members.values], Except.ok.inj h ▸ hp⟩
  | .broken _, _ | .noKey _, _ | .badKey _ _, _ => by
    refine ⟨fun hs h => ?_, fun hp h => ?_⟩
    · exact absurd h (by simp [ofMembers])
    · exact absurd h (by simp [tableOfMembers])
  | .member key t rest, ht => by
    have htree := Tree.rereads ht.1
    refine ⟨fun {depth s seen m n} hs h => ?_, fun {depth p p' m} hp h => ?_⟩
    · -- A member is kept as it is, or its keyword has a slot.
      obtain ⟨k, v, rfl, hk, hv, h⟩ | ⟨kw, a, rfl, ha, h⟩ := ofMembers_member_cases h
      · obtain ⟨m', hm', hsofar⟩ := (Members.rereads ht.2).1 (hs.insert hk) h
        exact ⟨m', Members.values_member_eq_ok_iff.mpr ⟨_, v, rfl, hv, hm'⟩, hsofar⟩
      · obtain ⟨v, hv, hread⟩ := htree.slot ht.1 kw ha
        obtain ⟨m', hm', hsofar⟩ := (Members.rereads ht.2).1 (hs.put hread) h
        exact ⟨m', Members.values_member_eq_ok_iff.mpr ⟨_, v, rfl, hv, hm'⟩, hsofar⟩
    · obtain ⟨k, s, rfl, hs, h⟩ := tableOfMembers_member_eq_ok_iff.mp h
      obtain ⟨v, hv, hread⟩ := htree.entry hs
      -- A key may come again here: then both tables replace the entry.
      have hp' := Keyed.forall₂_insert (k := k)
        (R := fun (v : Value) s => readEntry depth v.tree = .ok s) hp hread
      obtain ⟨m', hm', hentries⟩ := (Members.rereads ht.2).2 hp' h
      exact ⟨m', Members.values_member_eq_ok_iff.mpr ⟨k, v, rfl, hv, hm'⟩, hentries⟩

end

end CompositeCrd.Schema
