import CompositeCrd.Proofs.Crd.RoundTrip
import CompositeCrd.Proofs.Json.Order
import CompositeCrd.Proofs.Schema.Spelling

/-!
# Several definitions in one document

Rendered as JSON, custom resource definitions make one document: the definition itself if there
is one, and a list object if there are several (`gathered`). The members of the objects in a list
are sorted, those of a single definition are not, but as values its items are the documents that
the definitions are rendered as one by one. Each of them is read as the echo of its definition,
and so as the definition when its numbers come back (`renderAll_reads_back`).

Nothing at all is printed when there is no definition, which is no document
(`renderAll_nil_no_document`).
-/

namespace CompositeCrd

open Json Json.Codec

variable {v : Value} {vs : List Value} {crd : Crd} {crds : List Crd}

/-! ### Definitions in any order of their members -/

/-- A schema is read from its members in any order. -/
theorem Schema.codec_readsSorted : Schema.codec.ReadsSorted := by
  intro depth v s hv h
  exact (Schema.ofTree_sorted hv.tree h).2

/-- The records of the metadata are read from their members in any order. -/
theorem OwnerReference.form_readsSorted : (form : Codec OwnerReference).ReadsSorted :=
  record_readsSorted <| .field text_readsSorted <| .field text_readsSorted <|
    .field text_readsSorted <| .field text_readsSorted <|
    .field (nullable_readsSorted flag_readsSorted) <|
    .field (nullable_readsSorted flag_readsSorted) .done

theorem ObjectMeta.form_readsSorted : (form : Codec ObjectMeta).ReadsSorted :=
  record_readsSorted <| .field text_readsSorted <| .field (nullable_readsSorted text_readsSorted) <|
    .field (map_readsSorted text_readsSorted) <| .field (map_readsSorted text_readsSorted) <|
    .field (list_readsSorted OwnerReference.form_readsSorted) .done

theorem ResourceNames.form_readsSorted : (form : Codec ResourceNames).ReadsSorted :=
  record_readsSorted <| .field text_readsSorted <| .field text_readsSorted <|
    .field text_readsSorted <| .field text_readsSorted <|
    .field (list_readsSorted text_readsSorted) <| .field (list_readsSorted text_readsSorted) .done

theorem PrinterColumn.form_readsSorted : (form : Codec PrinterColumn).ReadsSorted :=
  record_readsSorted <| .field text_readsSorted <| .field text_readsSorted <|
    .field text_readsSorted <| .field (nullable_readsSorted text_readsSorted) <|
    .field (nullable_readsSorted text_readsSorted) <|
    .field (nullable_readsSorted int32_readsSorted) .done

/-- A version is read in any order, as its schema is. -/
theorem CrdVersion.form_readsSorted : form.ReadsSorted := by
  have hschema : validationForm.ReadsSorted :=
    record_readsSorted <| .field Schema.codec_readsSorted .done
  have hmarker : markerForm.ReadsSorted := record_readsSorted .done
  have hsubresources : subresourcesForm.ReadsSorted :=
    record_readsSorted <| .field (nullable_readsSorted hmarker) .done
  exact record_readsSorted <| .field text_readsSorted <| .field flag_readsSorted <|
    .field flag_readsSorted <| .field (list_readsSorted PrinterColumn.form_readsSorted) <|
    .field hschema <| .field hsubresources .done

theorem CrdSpec.form_readsSorted : form.ReadsSorted :=
  record_readsSorted <| .field text_readsSorted <| .field ResourceNames.form_readsSorted <|
    .field spelled_readsSorted <| .field (list_readsSorted CrdVersion.form_readsSorted) .done

theorem CrdStatus.form_readsSorted : (form : Codec CrdStatus).ReadsSorted := by
  have hcondition : (Condition.form : Codec Condition).ReadsSorted :=
    record_readsSorted <| .field text_readsSorted <| .field spelled_readsSorted <|
      .field (nullable_readsSorted text_readsSorted) <|
      .field (nullable_readsSorted text_readsSorted) <|
      .field (nullable_readsSorted text_readsSorted) .done
  exact record_readsSorted <| .field (list_readsSorted hcondition) .done

/-- **A custom resource definition is read from its members in any order.** -/
theorem Crd.form_readsSorted : form.ReadsSorted :=
  record_readsSorted <| .field text_readsSorted <| .field text_readsSorted <|
    .field ObjectMeta.form_readsSorted <| .field CrdSpec.form_readsSorted <|
    .field (nullable_readsSorted CrdStatus.form_readsSorted) .done

/-- The definition is written as a value whose numbers are numbers of documents. -/
def Crd.Proper (crd : Crd) : Prop :=
  ∀ v, form.encode crd = some v → v.Proper

/-- What a regular resource definition is written as is proper. -/
theorem Crd.Regular.proper (h : crd.Regular) : crd.Proper := by
  intro v hv
  exact (form_lawful.reads ⟨h, rfl⟩ hv le_rfl).1

/-- The echo of a regular definition is read from the sorted value too. -/
theorem Crd.Regular.reads_sorted (h : crd.Regular) (hv : form.encode crd = some v)
    (hdepth : v.nesting ≤ maxDepth) :
    form.decode maxDepth v.sorted.echo.tree = .ok crd.echo := by
  obtain ⟨hproper, hread⟩ := form_lawful.reads ⟨h, rfl⟩ hv hdepth
  rw [← Value.sorted_echo]
  exact form_readsSorted hproper.echo hread

/-! ### Lists of values -/

/-- The value of a text that is one document. -/
def Json.valueOf (text : String) : Decoded Value :=
  (Document.ofText text).decode Tree.value

/-- The document that holds some values: the value itself if there is one, and else an object
that lists them. -/
def gathered : List Value → Value
  | [v] => v
  | items => .object
    [("apiVersion", .string "v1"), ("items", .array items), ("kind", .string "List")]

/-- What is printed of several values. -/
def printed : List Value → Value
  | [v] => v
  | items => (listOf items).sorted

/-- The text of a value is a document of the sorted value, with what comes back of it. -/
theorem valueOf_jsonLines (hv : v.Proper) (hdepth : v.nesting ≤ maxDepth) :
    Json.valueOf (jsonLines v) = .ok v.sorted.echo := by
  rw [Json.valueOf, jsonLines, ofText_pretty hv, decode_document,
    value_tree ((Value.nesting_echo v).trans_le hdepth), Value.sorted_echo]

/-- The members of a list in order. -/
theorem sorted_listOf (items : List Value) : (listOf items).sorted = .object
    [("apiVersion", .string "v1"), ("items", .array (items.map Value.sorted)),
      ("kind", .string "List")] := by
  rw [← sorted_array, listOf, sorted_object]
  simp only [List.map_cons, List.map_nil, Keyed.overlay_cons, Keyed.overlay_nil, Keyed.insert]
  rfl

/-- What is printed is the document that holds the values, up to the order of members. -/
theorem sorted_printed (vs : List Value) :
    (printed vs).sorted = gathered (vs.map Value.sorted) := by
  match vs with
  | [] => exact (sorted_sorted _).trans (sorted_listOf [])
  | [v] => rfl
  | v :: w :: vs => exact (sorted_sorted _).trans (sorted_listOf (v :: w :: vs))

/-- What comes back of a document that holds some values holds what comes back of them. -/
theorem gathered_echo (vs : List Value) : (gathered vs).echo = gathered (vs.map Value.echo) := by
  match vs with
  | [] => simp [gathered]
  | [v] => rfl
  | v :: w :: vs => simp [gathered]

/-- A document is nested as deep as each of its parts, at least. -/
theorem nesting_gathered (hv : v ∈ vs) : v.nesting ≤ (gathered vs).nesting := by
  match vs with
  | [w] =>
    obtain rfl := List.mem_singleton.mp hv
    exact le_rfl
  | w :: w' :: vs =>
    have hitems : v.nesting ≤ nestingItems (w :: w' :: vs) := nesting_le_items hv
    simp only [gathered, Value.nesting, nestingMembers]
    omega

/-- A list is nested as deep as the object that gathers it. -/
theorem nesting_printed (hvs : vs ≠ []) : (printed vs).nesting ≤ (gathered vs).nesting := by
  match vs with
  | [v] => exact le_rfl
  | v :: w :: vs =>
    refine (nesting_sorted_le _).trans (le_of_eq ?_)
    simp only [listOf, gathered, Value.nesting, nestingMembers]
    omega

/-- A document of proper parts is proper. -/
theorem proper_printed (h : ∀ v ∈ vs, v.Proper) : (printed vs).Proper := by
  match vs with
  | [v] => exact h v List.mem_cons_self
  | [] => exact (Value.Proper.canonical_sorted (by simp [listOf])).proper
  | v :: w :: vs =>
    have hlist : (listOf (v :: w :: vs)).Proper := by
      simpa [listOf] using h
    exact hlist.canonical_sorted.proper

/-! ### Rendering definitions together -/

/-- All resource definitions have an encoding. -/
theorem exists_encode_all (crds : List Crd) : ∃ vs, crds.mapM Crd.form.encode = some vs := by
  obtain ⟨vs, hvs, -⟩ := (exists_mapM_iff (Q := fun _ => True)).mpr fun crd _ => by
    obtain ⟨v, hv⟩ := Crd.exists_encode crd
    exact ⟨v, hv, trivial⟩
  exact ⟨vs, hvs⟩

/-- Every definition has a text. -/
theorem Crd.exists_render (format : OutputFormat) (crd : Crd) :
    ∃ text, crd.render format = some text := by
  obtain ⟨v, hv⟩ := crd.exists_encode
  unfold Crd.render
  rw [hv]
  exact ⟨_, rfl⟩

/-- Definitions have a text together, also if there are none. -/
theorem exists_renderAll (format : OutputFormat) (crds : List Crd) :
    ∃ text, Crd.renderAll format crds = some text := by
  obtain ⟨vs, hvs⟩ := exists_encode_all crds
  obtain ⟨documents, hdocuments, -⟩ := (exists_mapM_iff (Q := fun _ => True)).mpr
    fun crd (_ : crd ∈ crds) => by
      obtain ⟨text, htext⟩ := crd.exists_render format
      exact ⟨text, htext, trivial⟩
  unfold Crd.renderAll
  split
  · rw [hvs]
    exact ⟨_, rfl⟩
  · rw [hdocuments]
    exact ⟨_, rfl⟩

/-- Definitions are printed as one value, if there are some. -/
theorem renderAll_json (hsome : crds ≠ []) (hvs : crds.mapM Crd.form.encode = some vs) :
    Crd.renderAll .json crds = some (jsonLines (printed vs)) := by
  have hlength := mapM_eq_some_iff.mp hvs
  match crds, vs, hlength with
  | [crd], [v], .cons hv .nil =>
    have hrender : [crd].mapM (Crd.render .json) = some [jsonLines v] := by
      simp [Crd.render, hv]
    rw [Crd.renderAll, hrender]
    · rfl
    · simp
  | crd :: crd' :: crds, v :: w :: vs, _ =>
    rw [Crd.renderAll, hvs]
    rfl

/-- **Definitions rendered as JSON are one document**: the definition itself if there is one, and
a list object if there are several. Its items are, in order, the documents that the definitions
are rendered as one by one. Those of regular definitions are read as the definitions again, with
what comes back in the place of their numbers, and as they are when their numbers come back. -/
theorem renderAll_reads_back (hsome : crds ≠ []) (hproper : ∀ crd ∈ crds, crd.Proper)
    (hdepth : ∀ vs, crds.mapM Crd.form.encode = some vs → (gathered vs).nesting ≤ maxDepth) :
    ∃ text items, Crd.renderAll .json crds = some text
      ∧ Json.valueOf text = .ok (gathered items)
      ∧ List.Forall₂ (fun crd item =>
          ∃ single, crd.render .json = some single ∧ Json.valueOf single = .ok item) crds items
      ∧ ((∀ crd ∈ crds, crd.Regular) →
          items.mapM (fun item => Crd.form.decode maxDepth item.tree) = .ok (crds.map Crd.echo)
            ∧ ((∀ crd ∈ crds, crd.Stable) →
              items.mapM (fun item => Crd.form.decode maxDepth item.tree) = .ok crds)) := by
  -- The encodings, one for each resource definition.
  obtain ⟨vs, hvs⟩ := exists_encode_all crds
  have hencode := mapM_eq_some_iff.mp hvs
  have hnesting := hdepth vs hvs
  have hvs_ne : vs ≠ [] := by
    rintro rfl
    exact hsome (List.forall₂_nil_right_iff.mp hencode)
  -- A value is no deeper than the document that holds it, so it can be read by itself.
  have hshallow : List.Forall₂ (fun crd v => Crd.form.encode crd = some v ∧ v.nesting ≤ maxDepth)
      crds vs :=
    (forall₂_imp_of_mem hencode.flip fun v hv crd hcrd =>
      ⟨hcrd, (nesting_gathered hv).trans hnesting⟩).flip
  have hvalues : ∀ v ∈ vs, v.Proper := by
    intro v hv
    obtain ⟨crd, hcrd, hencoded⟩ := exists_of_forall₂ hencode hv
    exact hproper crd hcrd v hencoded
  refine ⟨jsonLines (printed vs), vs.map fun v => v.sorted.echo, renderAll_json hsome hvs, ?_, ?_,
    fun hregular => ?_⟩
  · -- The text as a whole is read as the printed value.
    rw [valueOf_jsonLines (proper_printed hvalues) ((nesting_printed hvs_ne).trans hnesting),
      sorted_printed, gathered_echo, List.map_map]
    rfl
  · -- So is each text by itself.
    refine List.forall₂_map_right_iff.mpr (forall₂_imp_of_mem hshallow ?_)
    intro crd hcrd v ⟨hv, hle⟩
    have hrender : crd.render .json = some (jsonLines v) := by rw [Crd.render, hv]; rfl
    exact ⟨jsonLines v, hrender, valueOf_jsonLines (hproper crd hcrd v hv) hle⟩
  · -- The items are sorted values, and those are read like the values themselves.
    have hread : List.Forall₂
        (fun crd v => Crd.form.decode maxDepth v.sorted.echo.tree = .ok crd.echo) crds vs :=
      forall₂_imp_of_mem hshallow fun crd hcrd v ⟨hv, hle⟩ =>
        (hregular crd hcrd).reads_sorted hv hle
    have hechoes : (vs.map fun v => v.sorted.echo).mapM
        (fun item => Crd.form.decode maxDepth item.tree) = .ok (crds.map Crd.echo) :=
      mapM_eq_ok_iff.mpr (List.forall₂_map_left_iff.mpr
        (List.forall₂_map_right_iff.mpr hread.flip))
    refine ⟨hechoes, fun hstable => ?_⟩
    -- What is stable is its own echo.
    have hself : crds.map Crd.echo = crds :=
      (List.map_congr_left fun crd hcrd =>
        (hregular crd hcrd).echo_eq (hstable crd hcrd)).trans (List.map_id _)
    rwa [hself] at hechoes

/-- Definitions that are rendered as one document come back as one. -/
theorem Crd.Regular.echo_eq_of_render {crd' : Crd} (h : crd.Regular) (h' : crd'.Regular)
    (hdepth : ∀ v, Crd.form.encode crd = some v → v.nesting ≤ maxDepth)
    (hdepth' : ∀ v, Crd.form.encode crd' = some v → v.nesting ≤ maxDepth)
    (hsame : crd.render .json = crd'.render .json) : crd.echo = crd'.echo := by
  obtain ⟨v, hv⟩ := crd.exists_encode
  obtain ⟨v', hv'⟩ := crd'.exists_encode
  have htext : jsonLines v = jsonLines v' := by
    unfold Crd.render at hsame
    rw [hv, hv'] at hsame
    exact Option.some.inj hsame
  -- The text tells the value up to the order of members, which is all that is needed to read it.
  have hvalue : v.sorted.echo = v'.sorted.echo := by
    have hread := valueOf_jsonLines (h.proper v hv) (hdepth v hv)
    rw [htext, valueOf_jsonLines (h'.proper v' hv') (hdepth' v' hv')] at hread
    exact (Except.ok.inj hread).symm
  have hread := h.reads_sorted hv (hdepth v hv)
  rw [hvalue, h'.reads_sorted hv' (hdepth' v' hv')] at hread
  exact (Except.ok.inj hread).symm

/-- A definition that offers a claim. -/
def claimedSizes : Definition :=
  (Definition.new "compositesizes.example.org" "example.org"
      { kind := "CompositeSize", plural := "compositesizes" }
    |>.withClaimNames { kind := "Size", plural := "sizes" }).withVersion
      { name := "v1", referenceable := true }

/-- The two resource definitions of a claimed resource are printed as a list and read back. -/
theorem claimedSizes_read_back : ∃ composite claim text items,
    claimedSizes.generate .composite = .ok composite ∧ claimedSizes.generate .claim = .ok claim
      ∧ Crd.renderAll .json [composite, claim] = some text
      ∧ Json.valueOf text = .ok (gathered items)
      ∧ items.mapM (fun item => Crd.form.decode maxDepth item.tree) = .ok [composite, claim] := by
  have hcomposite : claimedSizes.generate .composite = .ok _ := rfl
  have hclaim : claimedSizes.generate .claim = .ok _ := rfl
  have hregular := List.forall_mem_cons.mpr ⟨(Crd.Arises.generated hcomposite).regular,
    List.forall_mem_singleton.mpr (Crd.Arises.generated hclaim).regular⟩
  obtain ⟨text, items, htext, hvalue, -, hread⟩ :=
    renderAll_reads_back (List.cons_ne_nil _ _) (fun crd hcrd => (hregular crd hcrd).proper)
      fun vs hvs => by
        obtain rfl := Option.some.inj hvs
        decide +kernel
  have hback := (hread hregular).2 <| List.forall_mem_cons.mpr
    ⟨List.forall_mem_singleton.mpr rfl,
      List.forall_mem_singleton.mpr (List.forall_mem_singleton.mpr rfl)⟩
  exact ⟨_, _, text, items, hcomposite, hclaim, htext, hvalue, hback⟩

/-- No definitions are printed as no document at all. -/
theorem renderAll_nil_no_document :
    ¬∃ text, Crd.renderAll .json [] = some text ∧ Json.valueOf text = .ok (gathered []) := by
  rintro ⟨text, htext, hvalue⟩
  obtain rfl : "" = text := Option.some.inj htext
  have hempty : Json.valueOf "" = .error (.fault .truncated) := rfl
  exact absurd (hempty.symm.trans hvalue) (by simp)

end CompositeCrd
