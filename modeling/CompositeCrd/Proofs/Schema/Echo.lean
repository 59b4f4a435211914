import CompositeCrd.Proofs.Schema.Regular

/-!
# What comes back from the text of a node

The values that a node embeds are written and read like all others, so their numbers may come back
as others (`Json.Value.echo`). Everything else comes back: `Schema.echo s` is the node `s` with what
comes back in the place of each embedded value, at every depth.

No keyword looks at a number, so a value is read as a node when its echo is, and then the echo is
read as the echo of the node (`ofTree_echo`). This is proved slot by slot (`Echoes.slot`), as
reading is.
-/

namespace CompositeCrd.Schema

open Json

mutual

/-- **What reading gives for the text of a node.** -/
def echo : Schema → Schema
  | ⟨type, description, format, properties, required, items, additional, enum, default, nullable,
      preserve, extra⟩ =>
    ⟨type, description, format, echoProperties properties, required, echoItems items,
      echoAdditional additional, enum.map Value.echo, default.map Value.echo, nullable, preserve,
      extra.map fun e => (e.1, e.2.echo)⟩

/-- What reading gives for the nodes of a property tree. -/
def echoProperties : List (String × Schema) → List (String × Schema)
  | [] => []
  | (k, s) :: rest => (k, s.echo) :: echoProperties rest

/-- What reading gives for the rule of items. -/
def echoItems : Option (ItemRule Schema) → Option (ItemRule Schema)
  | none => none
  | some (.every s) => some (.every s.echo)
  | some (.positional ss) => some (.positional (echoAll ss))

/-- What reading gives for a list of nodes. -/
def echoAll : List Schema → List Schema
  | [] => []
  | s :: ss => s.echo :: echoAll ss

/-- What reading gives for the rule of undeclared properties. -/
def echoAdditional : Option (AdditionalRule Schema) → Option (AdditionalRule Schema)
  | none => none
  | some (.allowed b) => some (.allowed b)
  | some (.matching s) => some (.matching s.echo)

end

variable {s t : Schema}

/-- The table of an echo, entry by entry. -/
theorem echoProperties_eq (m : PropertyTree) :
    echoProperties m = m.map fun e => (e.1, e.2.echo) := by
  induction m with
  | nil => rfl
  | cons e m ih => rw [echoProperties, ih, List.map_cons]

/-- The alternatives of an echo, one by one. -/
theorem echoAll_eq (ss : List Schema) : echoAll ss = ss.map echo := by
  induction ss with
  | nil => rfl
  | cons s ss ih => rw [echoAll, ih, List.map_cons]

/-! ### Slots -/

/-- What reading gives for a slot. -/
def echoSlot : (kw : Keyword) → kw.Slot → kw.Slot
  | .properties => echoProperties
  | .items => echoItems
  | .additionalProperties => echoAdditional
  | .enumValues => fun vs : List Value => vs.map Value.echo
  | .default => fun a : Option Value => a.map Value.echo
  | .type | .description | .format | .required | .nullable | .preserveUnknownFields => fun a => a

/-- The echo of a schema keyword by keyword. -/
theorem get_echo (s : Schema) (kw : Keyword) : s.echo.get kw = echoSlot kw (s.get kw) := by
  obtain ⟨⟩ := s
  cases kw <;> rw [echo] <;> rfl

/-- The keywords without a slot are echoed as the values they are. -/
theorem extra_echo (s : Schema) : s.echo.extra = s.extra.map fun e => (e.1, e.2.echo) := by
  obtain ⟨⟩ := s
  rw [echo]

/-- The properties of an echo are the echoes of the properties. -/
theorem properties_echo (s : Schema) :
    s.echo.properties = s.properties.map fun e => (e.1, e.2.echo) :=
  (get_echo s .properties).trans (echoProperties_eq s.properties)

/-- The blank node has nothing in it that is read. -/
theorem echo_blank : echo {} = {} := by
  rw [echo]
  rfl

/-! ### Members -/

/-- Echoing members leaves their keys, so the same ones name a keyword. -/
theorem named_echo (ms : List (String × Value)) :
    named (ms.map fun e => (e.1, e.2.echo)) = named ms := by
  rw [named, List.filterMap_map]
  rfl

/-- The members left over are echoed where they are. -/
theorem unnamed_echo (ms : List (String × Value)) :
    unnamed (ms.map fun e => (e.1, e.2.echo)) = (unnamed ms).map fun e => (e.1, e.2.echo) := by
  rw [unnamed, List.filter_map]
  rfl

/-- The other members are kept with what comes back of them. -/
theorem sortedMembers_echo (ms : List (String × Value)) :
    sortedMembers [] (ms.map fun e => (e.1, e.2.echo))
      = (sortedMembers [] ms).map fun e => (e.1, e.2.echo) := by
  have h := Value.sorted_echo (.object ms)
  rw [Value.echo_object, Value.sorted, Value.sorted, Value.echo_object] at h
  exact Value.object.inj h

/-! ### Reading an echo -/

variable {v : Value} {vs : List Value} {ms : List (String × Value)} {kw : Keyword} {depth : Nat}

/-- What the value is read as, its echo is read as the echo of. -/
structure Echoes (v : Value) : Prop where
  node : ∀ ⦃depth n⦄, v.nesting ≤ depth → ofTree depth v.tree = .ok n →
    ofTree depth v.echo.tree = .ok n.echo
  list : ∀ ⦃depth ss⦄, v.nesting ≤ depth → listOfTree depth v.tree = .ok ss →
    listOfTree depth v.echo.tree = .ok (ss.map echo)
  table : ∀ ⦃depth m⦄, v.nesting ≤ depth → tableOfTree depth v.tree = .ok m →
    tableOfTree depth v.echo.tree = .ok (m.map fun e => (e.1, e.2.echo))

/-- A slot may be left blank by `null`, whatever else is read into it. -/
theorem optional_echo {α : Type} {f g : Tree → Decoded α} {h : Option α → Option α}
    (hnone : h none = none) (hsome : ∀ a, v ≠ .null → f v.tree = .ok a →
      ∃ b, g v.echo.tree = .ok b ∧ h (some a) = some b)
    {a : Option α} (ha : v.tree.optional f = .ok a) : v.echo.tree.optional g = .ok (h a) := by
  by_cases hnull : v = .null
  · subst hnull
    obtain rfl : none = a := Except.ok.inj ha
    rw [Value.echo_null, hnone]
    rfl
  · rw [optional_of_ne _ hnull] at ha
    rw [optional_of_ne _ (mt Value.echo_eq_null_iff.mp hnull)]
    obtain ⟨b, hb, rfl⟩ := map_eq_ok.mp ha
    obtain ⟨c, hc, heq⟩ := hsome b hnull hb
    rw [hc, heq]
    rfl

/-- A text is its own echo. -/
theorem text_echo {s : String} (h : v.tree.text = .ok s) : v.echo.tree.text = .ok s := by
  cases v with
  | string text => rwa [Value.echo_string]
  | _ => exact absurd h (by simp [Value.tree, Tree.text])

/-- A flag is its own echo. -/
theorem flag_echo {b : Bool} (h : v.tree.flag = .ok b) : v.echo.tree.flag = .ok b := by
  cases v with
  | bool b' => rwa [Value.echo_bool]
  | _ => exact absurd h (by simp [Value.tree, Tree.flag])

/-- A text that may be missing is read from the echo as it was. -/
theorem optional_text_echo {a : Option String} (h : v.tree.optional Tree.text = .ok a) :
    v.echo.tree.optional Tree.text = .ok a :=
  optional_echo (h := id) rfl (fun a _ ha => ⟨a, text_echo ha, rfl⟩) h

theorem optional_flag_echo {a : Option Bool} (h : v.tree.optional Tree.flag = .ok a) :
    v.echo.tree.optional Tree.flag = .ok a :=
  optional_echo (h := id) rfl (fun a _ ha => ⟨a, flag_echo ha, rfl⟩) h

theorem texts_echo {names : List String}
    (h : v.tree.list depth (fun _ t => t.text) = .ok names) :
    v.echo.tree.list depth (fun _ t => t.text) = .ok names := by
  obtain ⟨items, d, ht, rfl, h⟩ := Tree.list_eq_ok_iff.mp h
  cases v with
  | array vs =>
    obtain rfl : itemsTree vs = items := Tree.array.inj ht
    rw [Value.echo_array]
    refine Tree.list_eq_ok_iff.mpr ⟨_, d, rfl, rfl, decode_itemsTree_eq_ok_iff.mpr ?_⟩
    exact List.forall₂_map_left_iff.mpr
      ((decode_itemsTree_eq_ok_iff.mp h).imp fun _ _ => text_echo)
  | _ => exact absurd ht (by simp [Value.tree])

/-- Embedded values are read as what comes back of them. -/
theorem values_echo {as : List Value} (hdepth : v.nesting ≤ depth)
    (h : v.tree.list depth Tree.value = .ok as) :
    v.echo.tree.list depth Tree.value = .ok (as.map Value.echo) := by
  -- Only an array is read as a list.
  obtain ⟨items, d, ht, rfl, h⟩ := Tree.list_eq_ok_iff.mp h
  cases v with
  | array vs =>
    obtain rfl : itemsTree vs = items := Tree.array.inj ht
    have hvs : nestingItems vs ≤ d := Nat.le_of_succ_le_succ hdepth
    rw [decode_values hvs] at h
    obtain rfl := Except.ok.inj h
    -- Echoing keeps the nesting, so the echo can be read as deep as the value.
    have hecho : nestingItems (vs.map Value.echo) ≤ d := by
      rw [nestingItems_le_iff, List.forall_mem_map]
      exact fun v hv => (Value.nesting_echo v).trans_le (nestingItems_le_iff.mp hvs v hv)
    rw [Value.echo_array]
    refine Tree.list_eq_ok_iff.mpr ⟨_, d, rfl, rfl, (decode_values hecho).trans ?_⟩
    rw [List.map_map, List.map_map]
    exact congrArg Except.ok (List.map_congr_left fun v _ => Value.sorted_echo v)
  | _ => exact absurd ht (by simp [Value.tree])

namespace Echoes

variable (h : Echoes v) (hdepth : v.nesting ≤ depth)

include h hdepth

/-- The rule of items is read in the shape in which it was read. -/
theorem itemsOf_echo {rule : ItemRule Schema}
    (hrule : itemsOf depth v.tree (readings v.tree) = .ok rule) :
    ∃ rule', itemsOf depth v.echo.tree (readings v.echo.tree) = .ok rule'
      ∧ echoItems (some rule) = some rule' := by
  have hvalue := value_tree ((Value.nesting_echo v).trans_le hdepth)
  obtain ⟨-, -, hshape⟩ := bind_eq_ok.mp hrule
  simp only [itemsOf, hvalue, ok_bind]
  obtain ⟨s, hs, rfl⟩ | ⟨ss, hss, rfl⟩ := orNoAlternative_eq_ok hshape
  · have hnode : (readings v.echo.tree).node depth = .ok s.echo := h.node hdepth hs
    rw [hnode]
    exact ⟨.every s.echo, rfl, by rw [echoItems]⟩
  · have hlist : (readings v.echo.tree).list depth = .ok (ss.map echo) := h.list hdepth hss
    obtain ⟨_, _, ht, -⟩ := listOfTree_eq_ok_iff.mp hss
    -- A list is no node, so the second shape is taken again.
    cases v with
    | array vs =>
      have hnode : ∃ e, (readings (Value.array vs).echo.tree).node depth = .error e := by
        rw [Value.echo_array]
        exact ⟨_, rfl⟩
      obtain ⟨e, he⟩ := hnode
      rw [he, hlist]
      exact ⟨.positional (ss.map echo), rfl, by rw [echoItems, echoAll_eq]⟩
    | _ => exact absurd ht (by simp [Value.tree])

/-- The rule for other properties is read from the echo as its echo. -/
theorem additionalOf_echo {rule : AdditionalRule Schema}
    (hrule : additionalOf depth v.tree (readings v.tree) = .ok rule) :
    ∃ rule', additionalOf depth v.echo.tree (readings v.echo.tree) = .ok rule'
      ∧ echoAdditional (some rule) = some rule' := by
  have hvalue := value_tree ((Value.nesting_echo v).trans_le hdepth)
  obtain ⟨-, -, hshape⟩ := bind_eq_ok.mp hrule
  simp only [additionalOf, hvalue, ok_bind]
  obtain ⟨b, hb, rfl⟩ | ⟨s, hs, rfl⟩ := orNoAlternative_eq_ok hshape
  · rw [flag_echo hb]
    exact ⟨.allowed b, rfl, by rw [echoAdditional]⟩
  · have hnode : (readings v.echo.tree).node depth = .ok s.echo := h.node hdepth hs
    obtain ⟨_, _, ht, -⟩ := ofTree_eq_ok_iff.mp hs
    -- A node is no truth value, so the second shape is taken again.
    cases v with
    | object ms =>
      have hflag : ∃ e, (Value.object ms).echo.tree.flag = .error e := by
        rw [Value.echo_object]
        exact ⟨_, rfl⟩
      obtain ⟨e, he⟩ := hflag
      rw [he, hnode]
      exact ⟨.matching s.echo, rfl, by rw [echoAdditional]⟩
    | _ => exact absurd ht (by simp [Value.tree])

/-- **What is read into a slot comes back into the slot.** -/
theorem slot {a : kw.Slot} (ha : kw.read depth v.tree (readings v.tree) = .ok a) :
    kw.read depth v.echo.tree (readings v.echo.tree) = .ok (echoSlot kw a) := by
  cases kw with
  | type | description | format => exact optional_text_echo ha
  | properties =>
    obtain ⟨m, hm, rfl⟩ := map_eq_ok.mp ha
    refine map_eq_ok.mpr ⟨m.map echoProperties, optional_echo rfl (fun m _ hm => ?_) hm, ?_⟩
    · rw [Option.map_some, echoProperties_eq]
      exact ⟨_, h.table hdepth hm, rfl⟩
    · cases m <;> rfl
  | required =>
    obtain ⟨names, hnames, rfl⟩ := map_eq_ok.mp ha
    exact map_eq_ok.mpr ⟨names, optional_echo (h := id) rfl
      (fun a _ ha => ⟨a, texts_echo ha, rfl⟩) hnames, rfl⟩
  | items => exact optional_echo rfl (fun _ _ hrule => h.itemsOf_echo hdepth hrule) ha
  | additionalProperties =>
    exact optional_echo rfl (fun _ _ hrule => h.additionalOf_echo hdepth hrule) ha
  | enumValues =>
    obtain ⟨as, has, rfl⟩ := map_eq_ok.mp ha
    refine map_eq_ok.mpr ⟨as.map (List.map Value.echo), optional_echo rfl (fun as _ has => ?_) has,
      ?_⟩
    · exact ⟨_, values_echo hdepth has, rfl⟩
    · cases as <;> rfl
  | default =>
    refine optional_echo rfl (fun w _ hw => ?_) ha
    -- Any value is read, with the members in order.
    obtain rfl : v.sorted = w := Except.ok.inj ((value_tree hdepth).symm.trans hw)
    rw [value_tree ((Value.nesting_echo v).trans_le hdepth), Value.sorted_echo]
    exact ⟨_, rfl, rfl⟩
  | nullable =>
    obtain ⟨b, hb, rfl⟩ := map_eq_ok.mp ha
    exact map_eq_ok.mpr ⟨b, optional_flag_echo hb, rfl⟩
  | preserveUnknownFields => exact optional_flag_echo ha

end Echoes

/-- Entries of property trees that are `null` stay `null`. -/
theorem readEntry_echo (h : Echoes v) (hdepth : v.nesting ≤ depth)
    (hs : readEntry depth v.tree = .ok s) : readEntry depth v.echo.tree = .ok s.echo := by
  by_cases hnull : v = .null
  · subst hnull
    obtain rfl : {} = s := Except.ok.inj hs
    rw [Value.echo_null, echo_blank]
    rfl
  · have hne : ∀ {w : Value}, w ≠ .null → w.tree ≠ .null := by
      intro w hw
      cases w <;> simp_all [Value.tree]
    rw [readEntry_of_ne (hne hnull)] at hs
    rw [readEntry_of_ne (hne (mt Value.echo_eq_null_iff.mp hnull))]
    exact h.node hdepth hs

/-- An array echoes when its items do. -/
theorem echoes_array (h : ∀ v ∈ vs, Echoes v) : Echoes (.array vs) := by
  refine ⟨fun depth n _ hn => ?_, fun depth ss hdepth hss => ?_, fun depth m _ hm => ?_⟩
  · exact absurd hn (by simp [Value.tree, ofTree])
  · rw [Value.tree] at hss
    obtain ⟨_, depth, ⟨⟩, rfl, hss⟩ := listOfTree_eq_ok_iff.mp hss
    rw [Value.echo_array, Value.tree]
    refine listOfTree_eq_ok_iff.mpr ⟨_, depth, rfl, rfl, listOfItems_eq_ok_iff.mpr ?_⟩
    have hitems := nestingItems_le_iff.mp (Nat.le_of_succ_le_succ hdepth)
    refine List.forall₂_map_left_iff.mpr (List.forall₂_map_right_iff.mpr ?_)
    exact forall₂_imp_of_mem (listOfItems_eq_ok_iff.mp hss) fun v hv s hs =>
      (h v hv).node (hitems v hv) hs
  · exact absurd hm (by simp [Value.tree, tableOfTree])

/-- An object echoes when its members do: read as a schema, keyword by keyword; read as a table,
layer by layer. -/
theorem echoes_object (h : ∀ e ∈ ms, Echoes e.2) : Echoes (.object ms) := by
  refine ⟨fun depth n hdepth hn => ?_, fun depth ss _ hss => ?_, fun depth m hdepth hm => ?_⟩
  · rw [Value.tree] at hn
    obtain ⟨_, depth, ⟨⟩, rfl, hn⟩ := ofTree_eq_ok_iff.mp hn
    have hms : nestingMembers ms ≤ depth := Nat.le_of_succ_le_succ hdepth
    have hms' : nestingMembers (ms.map fun e => (e.1, e.2.echo)) ≤ depth := by
      rw [nestingMembers_le_iff, List.forall_mem_map]
      exact fun e he => (Value.nesting_echo e.2).trans_le (nestingMembers_le_iff.mp hms e he)
    -- What was read decides every slot and what is left over; both are echoed.
    obtain ⟨hseen, hnodup, hslots, hextra⟩ := (ofMembers_eq_ok_iff hms).mp hn
    rw [Value.echo_object, Value.tree]
    refine ofTree_eq_ok_iff.mpr ⟨_, depth, rfl, rfl, (ofMembers_eq_ok_iff hms').mpr
      ⟨by simp, by rwa [named_echo], fun kw => ?_, ?_⟩⟩
    · -- The slot is read from the echo of its member, or it is blank.
      have hslot := hslots kw
      rw [Keyed.find?_map]
      cases hfind : Keyed.find? (Spelled.spell kw) ms with
      | none =>
        rw [hfind, ReadsSlot] at hslot
        rw [Option.map_none, ReadsSlot, get_echo, hslot, ← get_echo, echo_blank]
      | some v =>
        rw [hfind, ReadsSlot] at hslot
        have hmem := Keyed.mem_of_find? hfind
        rw [Option.map_some, ReadsSlot, get_echo]
        exact (h _ hmem).slot ((nesting_le_members hmem).trans hms) hslot
    · rw [extra_echo, hextra, unnamed_echo, sortedMembers_echo]
  · -- An object is no list of alternatives.
    exact absurd hss (by simp [Value.tree, listOfTree])
  · rw [Value.tree] at hm
    obtain ⟨_, depth, ⟨⟩, rfl, hm⟩ := tableOfTree_eq_ok_iff.mp hm
    -- As a table, each member is read as a schema of its own.
    obtain ⟨layer, hlayer, rfl⟩ := tableOfMembers_eq_ok_iff.mp hm
    have hms := nestingMembers_le_iff.mp (Nat.le_of_succ_le_succ hdepth)
    rw [Value.echo_object, Value.tree]
    refine tableOfTree_eq_ok_iff.mpr ⟨_, depth, rfl, rfl, tableOfMembers_eq_ok_iff.mpr
      ⟨layer.map fun e => (e.1, e.2.echo), ?_, Keyed.map_overlay echo⟩⟩
    refine List.forall₂_map_left_iff.mpr (List.forall₂_map_right_iff.mpr ?_)
    refine forall₂_imp_of_mem hlayer ?_
    rintro e he e' ⟨hkey, hread⟩
    exact ⟨hkey, readEntry_echo (h e he) (hms e he) hread⟩

/-- Every value echoes. -/
theorem echoes (v : Value) : Echoes v := by
  induction v using Value.induction with
  | array vs ih => exact echoes_array ih
  | object ms ih => exact echoes_object ih
  | null | bool _ | number _ | string _ =>
    refine ⟨fun depth n _ hn => ?_, fun depth ss _ hss => ?_, fun depth m _ hm => ?_⟩
    · exact absurd hn (by simp [Value.tree, ofTree])
    · exact absurd hss (by simp [Value.tree, listOfTree])
    · exact absurd hm (by simp [Value.tree, tableOfTree])

/-- **The echo of a value is read as the echo of the node** that the value is read as. -/
theorem ofTree_echo (hdepth : v.nesting ≤ depth) (h : ofTree depth v.tree = .ok s) :
    ofTree depth v.echo.tree = .ok s.echo :=
  (echoes v).node hdepth h

/-- What is read from a value that comes back comes back itself. -/
theorem echo_eq_of_stable (hdepth : v.nesting ≤ depth) (hstable : v.Stable)
    (h : ofTree depth v.tree = .ok s) : s.echo = s := by
  have hecho := ofTree_echo hdepth h
  rw [hstable, h] at hecho
  exact (Except.ok.inj hecho).symm

end CompositeCrd.Schema
