import CompositeCrd.Proofs.Crd.Assembly
import CompositeCrd.Proofs.Crd.RoundTrip
import CompositeCrd.Proofs.Definition.Embedding
import CompositeCrd.Proofs.Json.Order
import CompositeCrd.Proofs.Schema.Depth

/-!
# How deep a generated definition is written

Generation moves what the author declares for `spec` from a manifest to a custom resource
definition, and it stands at the same level in both: a raw schema is five levels below a
manifest, and a schema is five levels below a custom resource definition. So nothing gets deeper
but what reading makes deeper, a property that is `null` (`Schema.NullEntry`).

For the definitions that get too deep it has to be known that they are not read. Decoders skip
what they do not know without counting levels, but in what is written there is nothing of that
kind (`Codec.Confined`).
-/

namespace CompositeCrd

open Json Json.Codec

variable {α β σ : Type} {depth n : Nat}

/-! ### What is written is read within its depth -/

/-- **Of what the codec writes it reads nothing that is too deep.** -/
def Json.Codec.Confined (c : Codec α) : Prop :=
  ∀ ⦃depth : Nat⦄ ⦃a b : α⦄ ⦃v : Value⦄, v.Proper → c.encode a = some v →
    c.decode depth v.echo.tree = .ok b → v.nesting ≤ depth

variable {c : Codec α}

/-- A text takes no level. -/
theorem text_confined : text.Confined := by
  rintro depth s _ _ - ⟨⟩ -
  exact Nat.zero_le depth

/-- A flag takes no level. -/
theorem flag_confined : flag.Confined := by
  rintro depth b _ _ - ⟨⟩ -
  exact Nat.zero_le depth

/-- An integer takes no level. -/
theorem int32_confined : int32.Confined := by
  rintro depth k _ _ - ⟨⟩ -
  exact Nat.zero_le depth

/-- A choice is written as a text, which takes no level. -/
theorem spelled_confined [Spelled α] : (spelled : Codec α).Confined := by
  rintro depth a _ _ - ⟨⟩ -
  exact Nat.zero_le depth

/-- An optional value is as deep as the value. -/
theorem nullable_confined (hc : c.Confined) : (nullable c).Confined := by
  intro depth a b v hproper hv h
  by_cases hnull : v = .null
  · subst hnull
    exact Nat.zero_le depth
  · cases a with
    | none => exact absurd (Option.some.inj hv).symm hnull
    | some a =>
      change v.echo.tree.optional _ = _ at h
      rw [optional_of_ne _ (mt Value.echo_eq_null_iff.mp hnull)] at h
      obtain ⟨b, hb, -⟩ := map_eq_ok.mp h
      exact hc hproper hv hb

/-- A list takes one level, and its items are read with one less. -/
theorem list_confined (hc : c.Confined) : (list c).Confined := by
  intro depth as bs v hproper hv h
  obtain ⟨vs, hvs, rfl⟩ := Option.map_eq_some_iff.mp hv
  rw [Value.echo_array, Value.tree] at h
  obtain ⟨_, depth, ⟨⟩, rfl, h⟩ := list_decode_eq_ok_iff.mp h
  have hread := List.forall₂_map_left_iff.mp (decode_itemsTree_eq_ok_iff.mp h)
  refine Nat.succ_le_succ (nestingItems_le_iff.mpr fun v hv => ?_)
  -- The item is written for one value and read as another.
  obtain ⟨a, -, ha⟩ := exists_of_forall₂ (mapM_eq_some_iff.mp hvs) hv
  obtain ⟨b, hb⟩ := exists_forall₂_iff.mp ⟨bs, hread⟩ v hv
  exact hc (Value.proper_array.mp hproper v hv) ha hb

/-- A map takes one level, and its values are read with one less. -/
theorem map_confined (hc : c.Confined) : (map c).Confined := by
  intro depth m m' v hproper hv h
  obtain ⟨ms, hms, rfl⟩ := Option.map_eq_some_iff.mp hv
  rw [Value.echo_object, Value.tree] at h
  obtain ⟨_, depth, entries, ⟨⟩, rfl, hentries, -⟩ := map_decode_eq_ok_iff.mp h
  have hread := List.forall₂_map_left_iff.mp (decode_membersTree_eq_ok_iff.mp hentries)
  refine Nat.succ_le_succ (nestingMembers_le_iff.mpr fun e he => ?_)
  obtain ⟨e', -, he'⟩ := exists_of_forall₂ (mapM_eq_some_iff.mp hms) he
  obtain ⟨v, hv, rfl⟩ := Option.map_eq_some_iff.mp he'
  obtain ⟨b, -, hb⟩ := exists_forall₂_iff.mp ⟨entries, hread⟩ _ he
  exact hc (Value.proper_object.mp hproper _ he) hv hb

namespace Fields

/-- The codecs of all fields are confined. -/
def Confined : {σ β : Type} → Fields Codec σ β → Prop
  | _, _, .done => True
  | _, _, .field _ c _ _ rest => c.Confined ∧ rest.Confined

/-- The written members of a record are members of its fields, so none of them is skipped. -/
theorem Confined.nesting_le : ∀ {σ β : Type} {fields : Fields Codec σ β} {b : β} {ms : Keyed Value}
    {slots : σ}, fields.Confined → fields.names.Nodup → (∀ e ∈ ms, e.2.Proper) →
    encodeFields fields b = some ms →
    (membersTree (echoed ms)).fill fields depth fields.empty = .ok slots →
    nestingMembers ms ≤ depth
  | _, _, .done, b, ms, slots, _, _, _, hms, _ => by
    obtain rfl := Option.some.inj hms
    exact Nat.zero_le depth
  | _, _, .field name c absent omits rest, (a, b), ms, slots, h, hnames, hproper, hms, hfill => by
    obtain ⟨hname, hnames⟩ := List.nodup_cons.mp hnames
    rw [encodeFields] at hms
    obtain ⟨ms', hms', hms⟩ := Option.bind_eq_some_iff.mp hms
    -- The field is not among the members of the fields behind it, so it is filled by its own.
    have hkeys : name ∉ Keyed.keys (echoed ms') := by
      rw [Keyed.keys_map]
      exact fun hk => hname (keys_encodeFields hms' name hk)
    split at hms
    · -- A field that is left out adds nothing, and the others are filled as if it were not there.
      obtain rfl := Option.some.inj hms
      rw [empty, fill_of_not_mem_keys hkeys] at hfill
      obtain ⟨slots', hslots, -⟩ := map_eq_ok.mp hfill
      exact h.2.nesting_le hnames hproper hms' hslots
    · obtain ⟨v, hv, hms⟩ := Option.bind_eq_some_iff.mp hms
      obtain rfl := Option.some.inj hms
      rw [empty, echoed, List.map_cons, membersTree, fill_member, fillOne_self] at hfill
      obtain ⟨filled, hfilled, hfill⟩ := bind_eq_ok.mp hfill
      obtain ⟨a', ha', rfl⟩ := map_eq_ok.mp hfilled
      rw [fill_of_not_mem_keys hkeys] at hfill
      obtain ⟨slots', hslots, -⟩ := map_eq_ok.mp hfill
      obtain ⟨hfirst, hrest⟩ := List.forall_mem_cons.mp hproper
      -- The members are as deep as this one or as the rest.
      exact max_le (h.1 hfirst hv ha') (h.2.nesting_le hnames hrest hms' hslots)

end Fields

/-- A record takes one level, and its fields are read with one less. -/
theorem record_confined {fields : Fields Codec σ β} {make : β → α} {split : α → β}
    (h : fields.Confined) (hnames : fields.names.Nodup) : (record fields make split).Confined := by
  intro depth a b v hproper hv hread
  obtain ⟨ms, hms, rfl⟩ := Option.map_eq_some_iff.mp hv
  rw [Value.echo_object, Value.tree] at hread
  obtain ⟨depth, _, rfl, rfl, ⟨_, slots, ⟨⟩, hslots, -⟩ | ⟨_, ⟨⟩, -⟩⟩ :=
    record_decode_eq_ok_iff.mp hread
  exact Nat.succ_le_succ (h.nesting_le hnames (Value.proper_object.mp hproper) hms hslots)

/-- Of the metadata of an object nothing too deep is read. -/
theorem ObjectMeta.form_confined : (form : Codec ObjectMeta).Confined := by
  have howner : (OwnerReference.form : Codec OwnerReference).Confined :=
    record_confined ⟨text_confined, text_confined, text_confined, text_confined,
      nullable_confined flag_confined, nullable_confined flag_confined, trivial⟩ (by decide)
  exact record_confined ⟨text_confined, nullable_confined text_confined,
    map_confined text_confined, map_confined text_confined, list_confined howner, trivial⟩
    (by decide)

/-- Of the names of a resource nothing too deep is read. -/
theorem ResourceNames.form_confined : (form : Codec ResourceNames).Confined :=
  record_confined ⟨text_confined, text_confined, text_confined, text_confined,
    list_confined text_confined, list_confined text_confined, trivial⟩ (by decide)

/-- Of a printer column nothing too deep is read. -/
theorem PrinterColumn.form_confined : (form : Codec PrinterColumn).Confined :=
  record_confined ⟨text_confined, text_confined, text_confined, nullable_confined text_confined,
    nullable_confined text_confined, nullable_confined int32_confined, trivial⟩ (by decide)

/-- Everything in a node is read as a value at least. -/
theorem Schema.codec_confined : Schema.codec.Confined := by
  intro depth s t v hproper hv h
  obtain ⟨w, hw, -⟩ := (Tree.rereads hproper.echo.tree).node depth h
  exact (Value.nesting_echo v).symm.trans_le (nesting_of_value_tree hw)

/-- Of a version nothing too deep is read, since its schema is read level by level. -/
theorem CrdVersion.form_confined : form.Confined := by
  have hvalidation : validationForm.Confined :=
    record_confined ⟨Schema.codec_confined, trivial⟩ (by decide)
  have hmarker : markerForm.Confined := record_confined trivial (by decide)
  have hsubresources : subresourcesForm.Confined :=
    record_confined ⟨nullable_confined hmarker, trivial⟩ (by decide)
  exact record_confined ⟨text_confined, flag_confined, flag_confined,
    list_confined PrinterColumn.form_confined, hvalidation, hsubresources, trivial⟩ (by decide)

/-- Of a specification nothing too deep is read. -/
theorem CrdSpec.form_confined : form.Confined :=
  record_confined ⟨text_confined, ResourceNames.form_confined, spelled_confined,
    list_confined CrdVersion.form_confined, trivial⟩ (by decide)

/-- Of a status nothing too deep is read. -/
theorem CrdStatus.form_confined : (form : Codec CrdStatus).Confined := by
  have hcondition : (Condition.form : Codec Condition).Confined :=
    record_confined ⟨text_confined, spelled_confined, nullable_confined text_confined,
      nullable_confined text_confined, nullable_confined text_confined, trivial⟩ (by decide)
  exact record_confined ⟨list_confined hcondition, trivial⟩ (by decide)

/-- **A written definition that is too deep is not read.** -/
theorem Crd.form_confined : form.Confined :=
  record_confined ⟨text_confined, text_confined, ObjectMeta.form_confined, CrdSpec.form_confined,
    nullable_confined CrdStatus.form_confined, trivial⟩ (by decide)

/-! ### The schema of a generated version -/

namespace Schema

variable {variant : Variant} {authored : PropertyTree} {s t : Schema} {k : String}
  {raw : RawSchema} {w u : Value}

/-- A plain object is two levels deeper than its properties. -/
theorem nesting_plain_le_iff {properties : PropertyTree} :
    ({ object with properties } : Schema).toValue.nesting ≤ n + 2
      ↔ ∀ e ∈ properties, e.2.toValue.nesting ≤ n := by
  cases properties with
  | nil => exact iff_of_true (Nat.succ_le_succ (Nat.zero_le _)) (by simp)
  | cons e es =>
    have hwritten : ({ object with properties := e :: es } : Schema).toValue
        = .object [("type", .string "object"), ("properties", .object (tableMembers (e :: es)))] :=
      rfl
    rw [hwritten, Value.nesting, Nat.add_le_add_iff_right, nestingMembers_le_iff]
    simp only [List.forall_mem_cons, Value.nesting, Nat.add_le_add_iff_right,
      nestingMembers_le_iff, tableMembers_eq, List.forall_mem_map]
    simp

end Schema

variable {variant : Variant} {authored : PropertyTree} {s : Schema}

theorem nesting_base : ∀ e ∈ Schema.Standard.base, e.2.toValue.nesting ≤ 1 := by
  decide

/-- The standard properties of `spec` are four levels deep at most. -/
theorem nesting_specProperties (variant : Variant) :
    ∀ e ∈ variant.specProperties, e.2.toValue.nesting ≤ 4 := by
  cases variant <;> decide

/-- The standard properties of `status` are four levels deep at most. -/
theorem nesting_status : ∀ e ∈ Schema.Standard.status, e.2.toValue.nesting ≤ 4 := by
  decide

/-- **The schema of a version is four levels deeper than what its author contributes**, where this
is not replaced by standard properties. -/
theorem Assembled.nesting_le_iff (h : Assembled variant authored s) (hn : 4 ≤ n) :
    s.toValue.nesting ≤ n + 4 ↔ ∀ k t, k ∉ Keyed.keys variant.specProperties →
      Keyed.find? k authored = some t → t.toValue.nesting ≤ n := by
  obtain ⟨properties, hspec, hsorted, hproperties⟩ := h.spec
  rw [h.root, Schema.nesting_plain_le_iff (n := n + 2)]
  -- Two levels are for the root and its table of properties, two for `spec` and its table.
  refine ⟨fun hall k t hk ht => ?_, fun hall e he => ?_⟩
  · have hplain := Schema.nesting_plain_le_iff.mp (hall _ (Keyed.mem_of_find? hspec))
    have hfind : Keyed.find? k properties = some t := by
      rw [hproperties, Keyed.find?_eq_none_iff.mpr hk, Option.none_or, ht]
    exact hplain _ (Keyed.mem_of_find? hfind)
  · obtain ⟨k, t⟩ := e
    have hkeys : k ∈ ["apiVersion", "kind", "metadata", "spec", "status"] :=
      h.keys ▸ Keyed.mem_keys_of_mem he
    have hnodup : (Keyed.keys s.properties).Nodup := by
      rw [h.keys]
      decide
    have hfind := Keyed.find?_of_mem hnodup he
    -- Only `spec` has something of the author in it.
    have henvelope : k ∈ ["apiVersion", "kind", "metadata"] → t.toValue.nesting ≤ n + 2 := by
      intro hk
      rw [h.envelope k hk] at hfind
      exact (nesting_base _ (Keyed.mem_of_find? hfind)).trans (by omega)
    simp only [List.mem_cons, List.not_mem_nil, or_false] at hkeys
    rcases hkeys with rfl | rfl | rfl | rfl | rfl
    · exact henvelope (by simp)
    · exact henvelope (by simp)
    · exact henvelope (by simp)
    · obtain rfl := Option.some.inj (hspec.symm.trans hfind)
      refine Schema.nesting_plain_le_iff.mpr fun e he => ?_
      have hentry := Keyed.find?_of_mem hsorted.nodup he
      rw [hproperties] at hentry
      -- Standard properties come first, and they are not deep.
      rcases Option.or_eq_some_iff.mp hentry with hstandard | ⟨hnone, hauthored⟩
      · exact (nesting_specProperties variant _ (Keyed.mem_of_find? hstandard)).trans hn
      · exact hall _ _ (Keyed.find?_eq_none_iff.mp hnone) hauthored
    · obtain rfl := Option.some.inj (h.status.symm.trans hfind)
      exact Schema.nesting_plain_le_iff.mpr fun e he => (nesting_status e he).trans hn

/-! ### What the author of a manifest contributes -/

variable {raw : RawSchema} {w : Value} {v : DefinitionVersion} {cv : CrdVersion} {d : Definition}
  {crd : Crd}

/-- A raw schema with the value `w` declares the property `k` of `spec` as `u`. -/
def DeclaresForSpec (w : Value) (k : String) (u : Value) : Prop :=
  ∃ spec, Schema.Declares w "spec" spec ∧ Schema.Declares spec k u

/-- What an author declares for `spec` is four levels below the raw schema. -/
theorem DeclaresForSpec.nesting_le {k : String} {u : Value} (h : DeclaresForSpec w k u) :
    u.nesting + 4 ≤ w.nesting := by
  obtain ⟨spec, hspec, hu⟩ := h
  have hbelow := hspec.nesting_le
  have hentry := hu.nesting_le
  omega

/-- What is declared in a canonical schema is canonical. -/
theorem DeclaresForSpec.canonical {k : String} {u : Value} (h : DeclaresForSpec w k u)
    (hw : w.Canonical) : u.Canonical := by
  obtain ⟨spec, hspec, hu⟩ := h
  exact hu.canonical (hspec.canonical hw)

/-- The node of a raw schema is read from its value, unless this is `null`. -/
theorem RawSchema.readEntry_of_node? {a : Option Schema} (hw : raw.value? = some w)
    (hne : w ≠ .null) (h : raw.node? = .ok a) :
    ∃ s, a = some s ∧ Schema.readEntry maxDepth w.tree = .ok s := by
  have hvalue := (decode_eq_ok_iff.mp (value?_eq_some_iff.mp hw)).1
  have hproper : raw.document.root.Proper := ofSymbols_proper _
  -- The stored text is read as an entry would be, and it is not null.
  have hroot : raw.document.root ≠ .null := by
    intro hnull
    rw [hnull, Tree.value] at hvalue
    exact hne (Except.ok.inj hvalue).symm
  have hoptional := (decode_eq_ok_iff.mp h).1
  rw [optional_of_ne_null _ hroot] at hoptional
  obtain ⟨s, hs, rfl⟩ := map_eq_ok.mp hoptional
  have hread := ((Schema.Tree.rereads hproper).node maxDepth).of_value hs hvalue
  have htree : w.tree ≠ .null := by
    cases w with
    | null => exact absurd rfl hne
    | _ => simp [Value.tree]
  exact ⟨s, rfl, (Schema.readEntry_of_ne htree).trans hread⟩

/-- **What the author contributes** are the declared properties of `spec`. -/
theorem specProperties_declared (hw : raw.value? = some w) (hne : w ≠ .null)
    (h : specProperties (some raw) = .ok authored) :
    (∀ k t, Keyed.find? k authored = some t →
        ∃ u, DeclaresForSpec w k u ∧ Schema.readEntry (maxDepth - 4) u.tree = .ok t)
      ∧ ∀ k u, DeclaresForSpec w k u →
        ∃ t, Keyed.find? k authored = some t ∧ Schema.readEntry (maxDepth - 4) u.tree = .ok t := by
  obtain ⟨hcanonical, hdepth⟩ := RawSchema.canonical_of_value? hw
  have hsorted := (specProperties_regular h).1
  rw [specProperties_some] at h
  -- Both directions go down two tables: from the schema to its `spec`, and from there to the
  -- property.
  obtain ⟨a, ha, rfl⟩ := map_eq_ok.mp h
  obtain ⟨s, rfl, hs⟩ := RawSchema.readEntry_of_node? hw hne ha
  refine ⟨fun k t ht => ?_, ?_⟩
  · rw [authoredProperties, Option.bind_some] at ht
    cases hspec : Keyed.find? "spec" s.properties with
    | none =>
      rw [hspec] at ht
      exact absurd ht (by simp)
    | some node =>
      rw [hspec] at ht
      obtain ⟨spec, hdeclares, hnode⟩ :=
        Schema.exists_declares_of_mem hcanonical hdepth hs (Keyed.mem_of_find? hspec)
      have hle := hdeclares.nesting_le
      obtain ⟨u, hu, hread⟩ := Schema.exists_declares_of_mem (hdeclares.canonical hcanonical)
        (by omega) hnode (Keyed.mem_of_find? ht)
      exact ⟨u, ⟨spec, hdeclares, hu⟩, hread⟩
  · rintro k u ⟨spec, hdeclares, hu⟩
    obtain ⟨node, hspec, hnode⟩ := hdeclares.exists_mem hcanonical hdepth hs
    have hle := hdeclares.nesting_le
    obtain ⟨t, ht, hread⟩ := hu.exists_mem (hdeclares.canonical hcanonical) (by omega) hnode
    have hfind : Keyed.find? "spec" s.properties = some node :=
      Keyed.find?_of_mem (regular_of_node? ha).sound.properties.nodup hspec
    have hauthored : authoredProperties (some s) = node.properties := by
      rw [authoredProperties, Option.bind_some, hfind]
      rfl
    rw [hauthored] at hsorted ⊢
    exact ⟨t, Keyed.find?_of_mem hsorted.nodup ht, hread⟩

/-- **A property that its author gives `spec` has a property that is `null`**, `l` levels down, and
the variant does not replace it. -/
def RawSchema.NullFor (raw : RawSchema) (variant : Variant) (l : Nat) : Prop :=
  ∃ w k u, raw.value? = some w ∧ k ∉ Keyed.keys variant.specProperties ∧ DeclaresForSpec w k u
    ∧ Schema.NullEntry l u

/-- The schema of a version fits where the raw schema does, unless there is such a property. -/
theorem version_nesting_le_iff (h : v.generate variant = .ok cv)
    (hfits : ∀ raw, v.schema = some raw → raw.Fits (n + 4)) (hn : 4 ≤ n) (hmax : n + 4 ≤ maxDepth) :
    cv.schema.toValue.nesting ≤ n + 4 ↔ ∀ raw, v.schema = some raw → ¬raw.NullFor variant n := by
  obtain ⟨authored, hauthored, hassembled⟩ := version_assembled h
  rw [hassembled.nesting_le_iff hn]
  cases hschema : v.schema with
  | none =>
    rw [hschema] at hauthored
    obtain rfl := Except.ok.inj hauthored
    simp
  | some raw =>
    rw [hschema] at hauthored
    obtain ⟨w, hw, hne, hdepth⟩ := hfits raw hschema
    obtain ⟨hfrom, hto⟩ := specProperties_declared hw hne hauthored
    have hcanonical := (RawSchema.canonical_of_value? hw).1
    -- A contribution that fits the manifest is too deep for such a property only.
    have hentry : ∀ k u t, DeclaresForSpec w k u →
        Schema.readEntry (maxDepth - 4) u.tree = .ok t →
        (t.toValue.nesting ≤ n ↔ ¬Schema.NullEntry n u) := by
      intro k u t hu hread
      have hle := hu.nesting_le
      exact Schema.nesting_entry_le_iff (hu.canonical hcanonical) hread (by omega) (by omega)
        (by omega)
    refine ⟨?_, fun hnone k t hk ht => ?_⟩
    · -- A null entry that is too deep belongs to a property that the author declares.
      rintro hall _ ⟨⟩ ⟨w', k, u, hw', hk, hu, hnull⟩
      obtain rfl : w' = w := Option.some.inj (hw'.symm.trans hw)
      obtain ⟨t, ht, hread⟩ := hto k u hu
      exact (hentry k u t hu hread).mp (hall k t hk ht) hnull
    · obtain ⟨u, hu, hread⟩ := hfrom k t ht
      exact (hentry k u t hu hread).mpr fun hnull => hnone raw rfl ⟨w, k, u, hw, hk, hu, hnull⟩

/-! ### Definitions from manifests -/

/-- The custom resource definition of a manifest is written within the limit, unless there is such
a property at the limit. -/
theorem generated_nesting_le_iff {s : List Symbol} {j : Value}
    (h : Definition.jsonForm.read (.ofSymbols s) = .ok d) (hcrd : d.generate variant = .ok crd)
    (hj : Crd.form.encode crd = some j) :
    j.nesting ≤ maxDepth ↔ ∀ raw, d.Attached raw → ¬raw.NullFor variant 118 := by
  have hfits : ∀ raw, d.Attached raw → raw.Fits 122 :=
    fun raw hraw => (Definition.embedded_of_read h raw hraw).fits (by decide)
  have hversions := forall₂_versions hcrd
  -- Apart from the schemas of its versions, a definition is not deep.
  have hnesting : j.nesting ≤ maxDepth
      ↔ ∀ cv ∈ crd.spec.versions, cv.schema.toValue.nesting ≤ 118 + 4 := by
    refine Iff.trans ?_ (Crd.form_writes (n := 121) crd)
    refine ⟨fun hle => ⟨j, hj, hle⟩, ?_⟩
    rintro ⟨j', hj', hle⟩
    obtain rfl := Option.some.inj (hj.symm.trans hj')
    exact hle
  have hversion : ∀ v ∈ d.spec.versions, ∀ cv, v.generate variant = .ok cv →
      (cv.schema.toValue.nesting ≤ 118 + 4
        ↔ ∀ raw, v.schema = some raw → ¬raw.NullFor variant 118) :=
    fun v hv cv hcv => version_nesting_le_iff hcv (fun raw hraw => hfits raw ⟨v, hv, hraw⟩)
      (by decide) (by decide)
  rw [hnesting, Definition.forall_attached_iff]
  -- Versions are generated one by one, and each answers for its own schema.
  refine ⟨fun hall v hv => ?_, fun hall cv hcv => ?_⟩
  · obtain ⟨cv, hcv, hgenerate⟩ := exists_of_forall₂ hversions.flip hv
    exact (hversion v hv cv hgenerate).mp (hall cv hcv)
  · obtain ⟨v, hv, hgenerate⟩ := exists_of_forall₂ hversions hcv
    exact (hversion v hv cv hgenerate).mpr (hall v hv)

/-- A definition with regular schemas is read from what is written for it exactly when that is
within the limit, in either layout, and what is read is its echo. -/
theorem Crd.read_text_iff {j : Value} (h : crd.Regular) (hj : form.encode crd = some j) :
    ∀ text ∈ [j.compact, j.pretty ++ "\n"],
      ((∃ c, form.read (.ofText text) = .ok c) ↔ j.nesting ≤ maxDepth)
        ∧ ∀ c, form.read (.ofText text) = .ok c → c = crd.echo := by
  have hproper : j.Proper := (@form_lawful j.nesting).reads ⟨h, rfl⟩ hj le_rfl |>.1
  intro text htext
  have hdocument : Document.ofText text = j.echo.document := by
    simp only [List.mem_cons, List.not_mem_nil, or_false] at htext
    rcases htext with rfl | rfl
    · exact ofText_compact hproper
    · exact ofText_pretty hproper
  rw [hdocument, Codec.read, decode_document]
  -- Within the limit a regular definition comes back, and beyond it nothing is read.
  have hback : j.nesting ≤ maxDepth → form.decode maxDepth j.echo.tree = .ok crd.echo :=
    fun hle => (form_lawful.reads ⟨h, rfl⟩ hj hle).2
  have hdepth : ∀ c, form.decode maxDepth j.echo.tree = .ok c → j.nesting ≤ maxDepth :=
    fun c hc => form_confined hproper hj hc
  refine ⟨⟨?_, fun hle => ⟨crd.echo, hback hle⟩⟩, fun c hc => ?_⟩
  · rintro ⟨c, hc⟩
    exact hdepth c hc
  · exact Except.ok.inj (hc.symm.trans (hback (hdepth c hc)))

/-- **What has been read is read again after it was written**, unless a property is `null` where
the limit on nesting leaves no room for the empty node that it becomes. A node is read again from
its compact text exactly when its document has no such property at level 127, and the custom
resource definition of a manifest, from either of its texts, exactly when no contribution of an
author has one at level 118, nine levels below the manifest. What is read again is the same, with
what comes back in the place of its numbers. -/
theorem read_again_iff (s : List Symbol) :
    (∀ n : Schema, Schema.codec.read (.ofSymbols s) = .ok n →
        ∃ w, (Document.ofSymbols s).decode Tree.value = .ok w
          ∧ ((∃ m, Schema.codec.read (.ofText n.compact) = .ok m)
            ↔ ¬Schema.NullEntry maxDepth w)
          ∧ ∀ m, Schema.codec.read (.ofText n.compact) = .ok m →
            m = n.echo ∧ (n.toValue.Stable → m = n))
      ∧ ∀ (d : Definition) (variant : Variant) (crd : Crd),
        Definition.jsonForm.read (.ofSymbols s) = .ok d → d.generate variant = .ok crd →
          ∃ j, Crd.form.encode crd = some j ∧ crd.render .json = some (j.pretty ++ "\n")
            ∧ ∀ text ∈ [j.compact, j.pretty ++ "\n"],
              ((∃ c, Crd.form.read (.ofText text) = .ok c)
                ↔ ∀ raw, d.Attached raw → ¬raw.NullFor variant 118)
              ∧ ∀ c, Crd.form.read (.ofText text) = .ok c →
                c = crd.echo ∧ (crd.Stable → c = crd) := by
  refine ⟨fun n h => ?_, fun d variant crd h hcrd => ?_⟩
  · obtain ⟨w, hw, hiff, hsame⟩ := Schema.read_compact_iff h
    -- Nodes that were decoded are regular, so what comes back of their numbers is all that can
    -- differ.
    have hregular := (Schema.Tree.readsRegular (ofSymbols_proper s)).node (decode_eq_ok_iff.mp h).1
    refine ⟨w, hw, hiff, fun m hm => ⟨hsame m hm, fun hstable => ?_⟩⟩
    rw [hsame m hm, hregular.echo_eq hstable]
  · obtain ⟨j, hj⟩ := crd.exists_encode
    have hrender : crd.render .json = some (j.pretty ++ "\n") := by
      rw [Crd.render, hj]
      rfl
    have hregular := (Crd.Arises.generated hcrd).regular
    refine ⟨j, hj, hrender, fun text htext => ?_⟩
    obtain ⟨hiff, hsame⟩ := Crd.read_text_iff hregular hj text htext
    rw [generated_nesting_le_iff h hcrd hj] at hiff
    refine ⟨hiff, fun c hc => ⟨hsame c hc, fun hstable => ?_⟩⟩
    rw [hsame c hc, hregular.echo_eq hstable]

/-! ### At the limit -/

/-- Lists of lists, `n` levels of them, of objects with a size that is `null`. -/
def listed : Nat → Value
  | 0 => .object [("properties", .object [("size", .null)])]
  | n + 1 => .object [("items", listed n)]

/-- These lists are canonical. -/
theorem listed_canonical (n : Nat) : (listed n).Canonical := by
  have hmember : ∀ {k : String} {v : Value}, v.Canonical → (Value.object [(k, v)]).Canonical :=
    fun hv => .object (List.pairwise_singleton _ _) (by simpa using hv)
  induction n with
  | zero => exact hmember (hmember .null)
  | succ n ih => exact hmember ih

/-- Their depth is two more than the number of lists. -/
theorem nesting_listed (n : Nat) : (listed n).nesting = n + 2 := by
  induction n with
  | zero => rfl
  | succ n ih => simp [listed, Value.nesting, nestingMembers, ih]

/-- The null stands at the innermost level. -/
theorem nullEntry_listed (n : Nat) : Schema.NullEntry (n + 2) (listed n) := by
  induction n with
  | zero => exact .entry (k := "size") List.mem_cons_self List.mem_cons_self
  | succ n ih => exact .every List.mem_cons_self ih

/-- These lists can be read as a node. -/
theorem acceptable_listed (n : Nat) : Schema.acceptable (listed n) = true := by
  induction n with
  | zero => rfl
  | succ n ih =>
    have hfits : Schema.fits .items (listed n) = Schema.acceptable (listed n) := by
      cases n <;> rfl
    change (Schema.fits .items (listed n) && true) = true
    rw [hfits, ih]
    rfl

/-- There is no number in these lists. -/
theorem stable_listed (n : Nat) : (listed n).Stable := by
  induction n with
  | zero => simp [listed]
  | succ n ih => simpa [listed] using ih

/-- They are read within the limit. -/
theorem exists_read_listed (hn : n + 2 ≤ maxDepth) :
    ∃ s, Schema.codec.read (.ofText (listed n).compact) = .ok s := by
  have hcanonical := listed_canonical n
  rw [ofText_compact hcanonical.proper, stable_listed n, Codec.read, decode_document]
  have hagreement := Schema.agreement hcanonical.distinctKeys
  exact (hagreement.node ((nesting_listed n).trans_le hn)).ok_iff.mpr (acceptable_listed n)

/-- Their text gives back the value. -/
theorem value_listed (hn : n + 2 ≤ maxDepth) :
    (Document.ofText (listed n).compact).decode Tree.value = .ok (listed n) := by
  have hcanonical := listed_canonical n
  rw [ofText_compact hcanonical.proper, stable_listed n, decode_document,
    value_tree ((nesting_listed n).trans_le hn), hcanonical.sorted_eq]

/-- What is read from these lists has no number either. -/
theorem echo_eq_of_read_listed {s : Schema} (hn : n + 2 ≤ maxDepth)
    (h : Schema.codec.read (.ofText (listed n).compact) = .ok s) : s.echo = s := by
  rw [ofText_compact (listed_canonical n).proper, stable_listed n, Codec.read, decode_document]
    at h
  exact Schema.echo_eq_of_stable ((nesting_listed n).trans_le hn) (stable_listed n) h

/-- A manifest in which these lists are what its author gives `spec`. -/
def listedDefinition (n : Nat) : Definition :=
  untidyDefinition (.ofValue (specifying [("size", listed n)]))

/-- As a schema for `spec` they are six levels deeper than the lists alone, and can be read. -/
theorem specifying_listed (n : Nat) : (specifying [("size", listed n)]).Canonical
    ∧ (specifying [("size", listed n)]).nesting = n + 6
    ∧ (specifying [("size", listed n)]).Stable
    ∧ Schema.acceptable (specifying [("size", listed n)]) = true := by
  have hmember : ∀ {k : String} {v : Value}, v.Canonical → (Value.object [(k, v)]).Canonical :=
    fun hv => .object (List.pairwise_singleton _ _) (by simpa using hv)
  refine ⟨hmember (hmember (hmember (hmember (listed_canonical n)))), ?_, ?_, ?_⟩
  · simp [specifying, Value.nesting, nestingMembers, nesting_listed]
  · simpa [specifying] using stable_listed n
  · have hlisted := acceptable_listed n
    cases n with
    | zero => rfl
    | succ n =>
      change (Schema.acceptable (listed (n + 1)) && true && true && true && true) = true
      rw [hlisted]
      rfl

/-- The raw schema with these lists writes them. -/
theorem value?_specifying_listed (hn : n + 6 ≤ maxDepth) :
    (RawSchema.ofValue (specifying [("size", listed n)])).value?
      = some (specifying [("size", listed n)]) := by
  obtain ⟨hcanonical, hnesting, hstable, -⟩ := specifying_listed n
  rw [RawSchema.value?_ofValue hcanonical (hnesting.trans_le hn), hstable]

/-- There is no number in the manifest either. -/
theorem listedDefinition_stable (hn : n + 6 ≤ maxDepth) : (listedDefinition n).Stable := by
  intro raw hraw w hw
  rw [untidyDefinition_attached hraw, value?_specifying_listed hn] at hw
  exact Option.some.inj hw ▸ (specifying_listed n).2.2.1

/-- The manifest can be written and read. -/
theorem exists_read_listedDefinition (hn : n + 6 ≤ 122) :
    ∃ text, Definition.jsonForm.read (.ofText text) = .ok (listedDefinition n) := by
  obtain ⟨hcanonical, hnesting, -⟩ := specifying_listed n
  have hvalue := value?_specifying_listed (n := n) (hn.trans (by decide))
  have hfits : ∀ raw, (listedDefinition n).Attached raw → raw.Fits 122 := by
    intro raw hraw
    obtain rfl := untidyDefinition_attached hraw
    exact ⟨_, hvalue, by simp [specifying], hnesting.trans_le hn⟩
  have hwrites : ∀ raw, (listedDefinition n).Attached raw →
      ∃ w, raw.value? = some w ∧ w.nesting ≤ 121 + 1 := by
    intro raw hraw
    obtain ⟨w, hw, -, hle⟩ := hfits raw hraw
    exact ⟨w, hw, hle⟩
  obtain ⟨j, hj, hdepth⟩ := (Definition.form_writes _).mpr hwrites
  -- There is no number in the manifest, so it comes back as it is.
  have hself : (listedDefinition n).echo = listedDefinition n := by
    refine Definition.echo_eq_self fun raw hraw => ?_
    rw [RawSchema.echo_eq_stored (listedDefinition_stable (hn.trans (by decide)) raw hraw),
      untidyDefinition_attached hraw, RawSchema.stored_of_value? hvalue]
  exact ⟨_, (Definition.read_encode hfits hj hdepth).trans (congrArg Except.ok hself)⟩

/-- The manifest generates a custom resource definition. -/
theorem exists_generate_listedDefinition (hn : n + 6 ≤ maxDepth) :
    ∃ crd, (listedDefinition n).generate .composite = .ok crd := by
  obtain ⟨hcanonical, hnesting, hstable, haccepted⟩ := specifying_listed n
  refine exists_generate_iff.mpr ⟨⟨_, rfl⟩, fun v hv raw hraw => ?_⟩
  obtain ⟨s, hs⟩ := ((Schema.agreement hcanonical.distinctKeys).node
    (hnesting.trans_le hn)).ok_iff.mpr haccepted
  rw [untidyDefinition_attached ⟨v, hv, hraw⟩, RawSchema.node?,
    RawSchema.document_ofValue hcanonical.proper, hstable, decode_document,
    optional_of_ne _ (by simp [specifying]), hs]
  exact ⟨_, rfl⟩

/-- **Not everything that has been read is read again**: at the limit a node and a manifest are
accepted, and neither the text of the node nor that of the custom resource definition is. -/
theorem listed_not_read_again :
    (∃ s, Schema.codec.read (.ofText (listed 125).compact) = .ok s
        ∧ ∀ m, Schema.codec.read (.ofText s.compact) ≠ .ok m)
      ∧ ∃ text crd j, Definition.jsonForm.read (.ofText text) = .ok (listedDefinition 116)
        ∧ (listedDefinition 116).generate .composite = .ok crd
        ∧ Crd.form.encode crd = some j ∧ ∀ c, Crd.form.read (.ofText j.compact) ≠ .ok c := by
  refine ⟨?_, ?_⟩
  · obtain ⟨s, hs⟩ := exists_read_listed (n := 125) (by decide)
    obtain ⟨w, hw, hiff, -⟩ := Schema.read_compact_iff hs
    obtain rfl := Except.ok.inj (hw.symm.trans (value_listed (by decide)))
    exact ⟨s, hs, fun m hm => hiff.mp ⟨m, hm⟩ (nullEntry_listed 125)⟩
  · obtain ⟨text, htext⟩ := exists_read_listedDefinition (n := 116) (by decide)
    obtain ⟨crd, hcrd⟩ := exists_generate_listedDefinition (n := 116) (by decide)
    obtain ⟨j, hj⟩ := crd.exists_encode
    have hread := Crd.read_text_iff (Crd.Arises.generated hcrd).regular hj _ List.mem_cons_self
    rw [generated_nesting_le_iff htext hcrd hj] at hread
    refine ⟨text, crd, j, htext, hcrd, hj, fun c hc => ?_⟩
    -- The size that is `null` stands at level 118 of what the author declares.
    have hdeclares : DeclaresForSpec (specifying [("size", listed 116)]) "size" (listed 116) :=
      ⟨_, ⟨_, _, rfl, List.mem_cons_self, List.mem_cons_self⟩,
        ⟨_, _, rfl, List.mem_cons_self, List.mem_cons_self⟩⟩
    refine hread.1.mp ⟨c, hc⟩ _ ⟨_, List.mem_cons_self, rfl⟩ ⟨_, "size", listed 116,
      value?_specifying_listed (by decide), by decide, hdeclares, nullEntry_listed 116⟩

/-- One level less, and both are read again. -/
theorem listed_read_again :
    (∃ s, Schema.codec.read (.ofText (listed 124).compact) = .ok s
        ∧ Schema.codec.read (.ofText s.compact) = .ok s)
      ∧ ∃ text crd j, Definition.jsonForm.read (.ofText text) = .ok (listedDefinition 115)
        ∧ (listedDefinition 115).generate .composite = .ok crd
        ∧ Crd.form.encode crd = some j ∧ Crd.form.read (.ofText j.compact) = .ok crd := by
  refine ⟨?_, ?_⟩
  · obtain ⟨s, hs⟩ := exists_read_listed (n := 124) (by decide)
    obtain ⟨w, hw, hiff, heq⟩ := (read_again_iff _).1 s hs
    obtain rfl := Except.ok.inj (hw.symm.trans (value_listed (by decide)))
    -- The null stands at level 126, where there is room for the empty node.
    have hnone : ¬Schema.NullEntry maxDepth (listed 124) := by
      intro h
      have hle := h.le_nesting
      rw [nesting_listed] at hle
      exact absurd hle (by decide)
    obtain ⟨m, hm⟩ := hiff.mpr hnone
    have hself := echo_eq_of_read_listed (by decide) hs
    exact ⟨s, hs, ((heq m hm).1.trans hself) ▸ hm⟩
  · obtain ⟨text, htext⟩ := exists_read_listedDefinition (n := 115) (by decide)
    obtain ⟨crd, hcrd⟩ := exists_generate_listedDefinition (n := 115) (by decide)
    obtain ⟨j, hj, -, hread⟩ := (read_again_iff _).2 _ _ crd htext hcrd
    obtain ⟨hiff, heq⟩ := hread _ List.mem_cons_self
    -- Here it stands at level 117 of the contribution.
    have hnone : ∀ raw, (listedDefinition 115).Attached raw → ¬raw.NullFor .composite 118 := by
      rintro raw hraw ⟨w, k, u, hw, -, hdeclares, hnull⟩
      obtain rfl := untidyDefinition_attached hraw
      obtain rfl := Option.some.inj (hw.symm.trans (value?_specifying_listed (by decide)))
      have hle := hnull.le_nesting
      have hbelow := hdeclares.nesting_le
      rw [(specifying_listed 115).2.1] at hbelow
      omega
    obtain ⟨c, hc⟩ := hiff.mpr hnone
    have hself := Crd.echo_eq_of_generate (listedDefinition_stable (by decide)) hcrd
    exact ⟨text, crd, j, htext, hcrd, hj, ((heq c hc).1.trans hself) ▸ hc⟩

end CompositeCrd
