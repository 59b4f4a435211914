import CompositeCrd.Proofs.Crd.Listing
import CompositeCrd.Proofs.Yaml.Margin

/-!
# Streams of custom resource definitions

In YAML, several definitions are rendered as one stream, with a line of three hyphens between
two documents. Nothing keeps the texts in a definition from having such lines themselves, but in
its document they are set in or made into escapes. So the stream can be taken apart at these
lines, and what comes out are the documents that the definitions have on their own
(`documents_renderAll`).

This holds for every list of definitions if whatever is a line break in YAML ends a line. If only
line feeds do, each document but the last must end with one. All do but those that end in a text
with a line separator or a paragraph separator at its end, written as a block. The last thing that
is written of a definition is a text only in the conditions that the API server reports
(`Crd.leavesOpen`), so the documents of generated definitions always come apart.
-/

namespace CompositeCrd

open Json Json.Codec Yaml

variable {α β σ : Type} {crd : Crd} {crds : List Crd} {variant : Variant} {d : Definition}

/-! ### Texts at the end of a definition -/

/-- The text that is written last of a condition. -/
def Condition.lastText (c : Condition) : String :=
  (c.lastTransitionTime <|> c.message <|> c.reason).getD (Spelled.spell c.status)

/-- Whether the document of a definition ends in a text of a condition that leaves the last line
open, for who takes line feeds alone for line ends. -/
def Crd.leavesOpen (crd : Crd) : Bool :=
  (crd.status.bind (·.conditions.getLast?)).any fun c => Yaml.leavesOpen c.lastText.toList

/-- Generation reports no conditions. -/
theorem Crd.leavesOpen_generate (h : d.generate variant = .ok crd) : crd.leavesOpen = false := by
  have hstatus : crd.status = none := by
    obtain ⟨_, _, _, -, -, rfl⟩ := generate_eq_ok_iff.mp h
    rfl
  rw [leavesOpen, hstatus]
  rfl

/-! ### What is written last -/

/-- The document of the value ends in a leaf with a property. -/
def EndsIn (P : Value → Prop) (v : Value) : Prop :=
  ∃ u, LastLeaf v u ∧ P u

/-- The document of an object with these members ends in such a leaf. -/
def Closing (P : Value → Prop) (ms : Keyed Value) : Prop :=
  ∃ front k v, ms = front ++ [(k, v)] ∧ EndsIn P v

/-- The value is no text. -/
def Textless (u : Value) : Prop :=
  ∀ s, u ≠ .string s

section

variable {P : Value → Prop}

/-- What the last member says does not depend on those in front. -/
theorem Closing.cons {ms : Keyed Value} (h : Closing P ms) (m : String × Value) :
    Closing P (m :: ms) := by
  obtain ⟨front, k, v, rfl, hv⟩ := h
  exact ⟨m :: front, k, v, rfl, hv⟩

theorem Closing.singleton {k : String} {v : Value} (h : EndsIn P v) : Closing P [(k, v)] :=
  ⟨[], k, v, rfl, h⟩

/-- An object ends in what its last member ends in. -/
theorem Closing.endsIn {ms : Keyed Value} (h : Closing P ms) : EndsIn P (.object ms) := by
  obtain ⟨front, k, v, rfl, u, hu, hP⟩ := h
  exact ⟨u, .object hu, hP⟩

theorem endsIn_of_isFlat {v : Value} (h : isFlat v = true) (hv : P v) : EndsIn P v :=
  ⟨v, .flat h, hv⟩

/-- Whatever a field adds, it adds in front. -/
theorem closing_field {name : String} {codec : Codec α} {absent : Option α} {omits : α → Bool}
    {rest : Fields Codec σ β} {a : α} {b : β}
    (h : ∀ ms, encodeFields rest b = some ms → Closing P ms) :
    ∀ ms, encodeFields (.field name codec absent omits rest) (a, b) = some ms → Closing P ms := by
  intro ms hms
  rw [encodeFields] at hms
  obtain ⟨members, hmembers, hms⟩ := Option.bind_eq_some_iff.mp hms
  -- The field is left out, or its member stands in front.
  split at hms
  · exact Option.some.inj hms ▸ h members hmembers
  · obtain ⟨v, -, hms⟩ := Option.bind_eq_some_iff.mp hms
    exact Option.some.inj hms ▸ (h members hmembers).cons _

/-- A field that is written is the last one if nothing is written of the others. -/
theorem closing_last {name : String} {codec : Codec α} {absent : Option α} {omits : α → Bool}
    {rest : Fields Codec σ β} {a : α} {b : β} (hrest : encodeFields rest b = some [])
    (homits : omits a = false) (h : ∀ v, codec.encode a = some v → EndsIn P v) :
    ∀ ms, encodeFields (.field name codec absent omits rest) (a, b) = some ms → Closing P ms := by
  intro ms hms
  rw [encodeFields, hrest] at hms
  obtain ⟨members, hmembers, hms⟩ := Option.bind_eq_some_iff.mp hms
  -- The field is written, and nothing behind it.
  rw [if_neg (by simp [homits])] at hms
  obtain ⟨v, hv, hms⟩ := Option.bind_eq_some_iff.mp hms
  obtain rfl := Option.some.inj hmembers
  exact Option.some.inj hms ▸ .singleton (h v hv)

/-- A record ends in what its fields end in. -/
theorem endsIn_record {fields : Fields Codec σ β} {make : β → α} {split : α → β} {a : α}
    (h : ∀ ms, encodeFields fields (split a) = some ms → Closing P ms) :
    ∀ v, (record fields make split).encode a = some v → EndsIn P v := by
  intro v hv
  obtain ⟨ms, hms, rfl⟩ := Option.map_eq_some_iff.mp hv
  exact (h ms hms).endsIn

/-- A list ends as its last element does, and an empty one in brackets. -/
theorem endsIn_list {codec : Codec α} {as : List α} (hnil : as = [] → P (.array []))
    (h : ∀ a ∈ as.getLast?, ∀ v, codec.encode a = some v → EndsIn P v) :
    ∀ v, (list codec).encode as = some v → EndsIn P v := by
  intro v hv
  obtain ⟨vs, hvs, rfl⟩ := Option.map_eq_some_iff.mp hv
  have hencode := mapM_eq_some_iff.mp hvs
  rcases List.eq_nil_or_concat as with rfl | ⟨front, a, rfl⟩
  · obtain rfl := List.forall₂_nil_left_iff.mp hencode
    exact endsIn_of_isFlat rfl (hnil rfl)
  · rw [List.concat_eq_append] at hencode h
    -- Read from behind, the last value is the first one.
    have hreverse := List.forall₂_reverse_iff.mpr hencode
    rw [List.reverse_append, List.reverse_singleton, List.singleton_append,
      List.forall₂_cons_left_iff] at hreverse
    obtain ⟨w, ws, hw, -, hvs⟩ := hreverse
    obtain ⟨u, hu, hP⟩ := h a (by simp) w hw
    rw [List.reverse_eq_cons_iff.mp hvs]
    exact ⟨u, .array hu, hP⟩

end

/-! ### How definitions end -/

/-- A condition ends with the last of its texts. -/
theorem Condition.endsIn_lastText (c : Condition) :
    ∀ v, (form : Codec Condition).encode c = some v → EndsIn (· = .string c.lastText) v := by
  have htext : ∀ s v, (text : Codec String).encode s = some v → EndsIn (· = .string s) v := by
    intro s v hv
    obtain rfl := Option.some.inj hv
    exact endsIn_of_isFlat rfl rfl
  refine endsIn_record <| closing_field ?_
  obtain ⟨type, status, reason, message, lastTransitionTime⟩ := c
  -- The fields that are absent are not written, and the one in front of them is the last.
  cases lastTransitionTime with
  | some s =>
    exact closing_field <| closing_field <| closing_field <| closing_last rfl rfl (htext s)
  | none =>
    cases message with
    | some s => exact closing_field <| closing_field <| closing_last rfl rfl (htext s)
    | none =>
      cases reason with
      | some s => exact closing_field <| closing_last rfl rfl (htext s)
      | none => exact closing_last rfl rfl (htext (Spelled.spell status))

/-- The subresources of a version end in no text. -/
theorem CrdVersion.endsIn_subresources (status : Bool) :
    ∀ v, subresourcesForm.encode status = some v → EndsIn Textless v := by
  intro v hv
  cases status with
  | false =>
    obtain rfl : .object [] = v := Option.some.inj hv
    exact endsIn_of_isFlat rfl (by simp [Textless])
  | true =>
    obtain rfl : .object [("status", .object [])] = v := Option.some.inj hv
    exact (Closing.singleton (endsIn_of_isFlat rfl (by simp [Textless]))).endsIn

/-- A version ends in its subresources. -/
theorem CrdVersion.endsIn_textless (version : CrdVersion) :
    ∀ v, form.encode version = some v → EndsIn Textless v :=
  endsIn_record <| closing_field <| closing_field <| closing_field <| closing_field <|
    closing_field <| closing_last rfl rfl (endsIn_subresources _)

/-- The specification ends in its versions. -/
theorem CrdSpec.endsIn_textless (spec : CrdSpec) :
    ∀ v, form.encode spec = some v → EndsIn Textless v :=
  endsIn_record <| closing_field <| closing_field <| closing_field <|
    closing_last rfl rfl <| endsIn_list (fun _ => by simp [Textless])
      fun version _ => version.endsIn_textless

/-- What is written last where the last condition is this one, or where there is none. -/
def LastWritten : Option Condition → Value → Prop
  | some c, u => u = .string c.lastText
  | none, u => Textless u

/-- The status ends in the last field of its last condition that is written. -/
theorem CrdStatus.endsIn_last (status : CrdStatus) :
    ∀ v, (form : Codec CrdStatus).encode status = some v →
      EndsIn (LastWritten status.conditions.getLast?) v := by
  refine endsIn_record <| closing_last rfl rfl <| endsIn_list (fun hnil => ?_) fun c hc => ?_
  · rw [hnil]
    simp [LastWritten, Textless]
  · rw [Option.mem_def.mp hc]
    exact c.endsIn_lastText

/-- **A definition ends with the last text of its last condition**, and with no text if there is
no condition. -/
theorem Crd.endsIn_last (crd : Crd) : ∀ v, form.encode crd = some v →
    EndsIn (LastWritten (crd.status.bind (·.conditions.getLast?))) v := by
  refine endsIn_record <| closing_field <| closing_field <| closing_field ?_
  cases hstatus : crd.status with
  | none => exact closing_last rfl rfl crd.spec.endsIn_textless
  | some status => exact closing_field <| closing_last rfl rfl status.endsIn_last

/-! ### Documents -/

/-- The text of a resource definition is the lines of the object it is encoded as. -/
theorem render_yaml_eq_some_iff {text : String} : crd.render .yaml = some text ↔
    ∃ ms, Crd.form.encode crd = some (.object ms) ∧ text = yamlLines (.object ms) := by
  unfold Crd.render
  rw [Option.map_eq_some_iff]
  constructor
  · rintro ⟨v, hv, rfl⟩
    obtain ⟨ms, -, rfl⟩ := Option.map_eq_some_iff.mp hv
    exact ⟨ms, hv, rfl⟩
  · rintro ⟨ms, hms, rfl⟩
    exact ⟨_, hms, rfl⟩

/-- No line of a document is a mark. -/
theorem unmarked_render {text : String} (h : crd.render .yaml = some text) :
    Unmarked true text.toList := by
  obtain ⟨ms, -, rfl⟩ := render_yaml_eq_some_iff.mp h
  rw [yamlLines, String.toList_ofList]
  exact unmarked_document ms

/-- The last of these lines has an end. -/
theorem endsWith_render {text : String} (h : crd.render .yaml = some text) :
    Style.endsWith isBreak text.toList = true := by
  obtain ⟨ms, -, rfl⟩ := render_yaml_eq_some_iff.mp h
  rw [yamlLines, String.toList_ofList]
  exact endsWith_document _

/-- **The document of a definition ends with a line feed, unless it leaves the line open.** -/
theorem endsWith_feed_render_iff {text : String} (h : crd.render .yaml = some text) :
    Style.endsWith (· == '\n') text.toList = true ↔ crd.leavesOpen = false := by
  obtain ⟨ms, hms, rfl⟩ := render_yaml_eq_some_iff.mp h
  obtain ⟨u, hu, hlast⟩ := crd.endsIn_last _ hms
  rw [yamlLines, String.toList_ofList]
  refine hu.endsWith_feed_iff.trans ?_
  rw [Crd.leavesOpen]
  -- A definition without conditions ends in no text.
  cases hc : crd.status.bind (·.conditions.getLast?) with
  | none =>
    rw [hc] at hlast
    exact iff_of_true (fun s hs => absurd hs (hlast s)) rfl
  | some c =>
    rw [hc] at hlast
    exact ⟨fun h => h _ hlast, fun h s hs => Value.string.inj (hs.symm.trans hlast) ▸ h⟩

/-- A document is never empty. -/
theorem render_ne_empty {text : String} (h : crd.render .yaml = some text) : text ≠ "" := by
  rintro rfl
  exact absurd (endsWith_render h) (by simp [Style.endsWith])

/-- **A stream of definitions is taken apart into their documents**, as many and as they are, at
the lines that are marks, if all line breaks of YAML end a line. If line feeds alone do, it is
taken apart like that exactly when no definition but the last leaves its line open, as those that
are generated never do. No line of a document is a mark in any case. -/
theorem documents_renderAll (hsome : crds ≠ []) :
    ∃ texts stream, List.Forall₂ (fun crd text => crd.render .yaml = some text) crds texts
      ∧ Crd.renderAll .yaml crds = some stream
      ∧ documents isBreak stream = texts
      ∧ (documents (· == '\n') stream = texts ↔ ∀ crd ∈ crds.dropLast, crd.leavesOpen = false)
      ∧ ((∀ crd ∈ crds, ∃ d variant, Definition.generate d variant = .ok crd) →
        documents (· == '\n') stream = texts)
      ∧ ∀ text ∈ texts, ∀ ends, LineEnds ends →
          ∀ line ∈ lines ends text.toList, isMark ends line = false := by
  -- Each definition is rendered, and the stream is the texts with marks between them.
  obtain ⟨texts, htexts, -⟩ := (exists_mapM_iff (Q := fun _ => True)).mpr
    fun crd (_ : crd ∈ crds) => by
      obtain ⟨text, htext⟩ := crd.exists_render .yaml
      exact ⟨text, htext, trivial⟩
  have hrender := mapM_eq_some_iff.mp htexts
  have hstream : Crd.renderAll .yaml crds = some ("---\n".intercalate texts) := by
    rw [Crd.renderAll, htexts]
    · rfl
    · simp
  have hne : texts ≠ [] := by
    rintro rfl
    exact hsome (List.forall₂_nil_right_iff.mp hrender)
  have hof : ∀ text ∈ texts, ∃ crd : Crd, crd.render .yaml = some text := by
    intro text htext
    obtain ⟨crd, -, hcrd⟩ := exists_of_forall₂ hrender htext
    exact ⟨crd, hcrd⟩
  -- No text holds a mark of its own, and none is empty.
  have hunmarked : ∀ text ∈ texts, Unmarked true text.toList := fun text htext =>
    (hof text htext).elim fun _ => unmarked_render
  have hfull : ∀ text ∈ texts, text ≠ "" := fun text htext =>
    (hof text htext).elim fun _ => render_ne_empty
  have hfeed : documents (· == '\n') ("---\n".intercalate texts) = texts
      ↔ ∀ crd ∈ crds.dropLast, crd.leavesOpen = false := by
    -- The documents in front are those of the definitions in front.
    have hfront : List.Forall₂ (fun crd text => crd.render .yaml = some text)
        crds.dropLast texts.dropLast := by
      rw [List.dropLast_eq_take, List.dropLast_eq_take, hrender.length_eq]
      exact List.forall₂_take _ hrender
    -- At line feeds it comes down to how the texts in front end.
    rw [documents_intercalate_iff lineEnds_feed hne hunmarked hfull]
    refine ⟨fun h crd hcrd => ?_, fun h text htext => ?_⟩
    · obtain ⟨text, htext, hrendered⟩ := exists_of_forall₂ hfront.flip hcrd
      exact (endsWith_feed_render_iff hrendered).mp (h text htext)
    · obtain ⟨crd, hcrd, hrendered⟩ := exists_of_forall₂ hfront htext
      exact (endsWith_feed_render_iff hrendered).mpr (h crd hcrd)
  refine ⟨texts, _, hrender, hstream, documents_intercalate lineEnds_isBreak hne hunmarked ?_,
    hfeed, fun hgenerated => hfeed.mpr ?_,
    fun text htext ends hends => (hunmarked text htext).isMark_eq_false hends⟩
  · intro text htext
    obtain ⟨crd, hcrd⟩ := hof text (List.mem_of_mem_dropLast htext)
    exact endsWith_render hcrd
  · intro crd hcrd
    obtain ⟨d, variant, hgenerate⟩ := hgenerated crd (List.mem_of_mem_dropLast hcrd)
    exact Crd.leavesOpen_generate hgenerate

/-- A definition with an annotation that has a mark among its lines. -/
def ruled : Definition :=
  { claimedSizes with
    metadata :=
      { name := "compositesizes.example.org",
        annotations := SortedMap.empty.insert "note" "above\n---\nbelow" } }

/-- The two resource definitions of one whose schema has a rule are taken apart at the lines
between them, whichever characters end a line. -/
theorem ruled_taken_apart : ∃ composite claim first second stream,
    ruled.generate .composite = .ok composite ∧ ruled.generate .claim = .ok claim
      ∧ composite.render .yaml = some first ∧ claim.render .yaml = some second
      ∧ Crd.renderAll .yaml [composite, claim] = some stream
      ∧ documents isBreak stream = [first, second]
      ∧ documents (· == '\n') stream = [first, second] := by
  have hcomposite : ruled.generate .composite = .ok _ := rfl
  have hclaim : ruled.generate .claim = .ok _ := rfl
  -- There are two of them, so there are two texts.
  obtain ⟨texts, stream, hrender, hstream, hbreak, -, hfeed, -⟩ :=
    documents_renderAll (List.cons_ne_nil _ [_])
  rcases hrender with _ | ⟨hfirst, _ | ⟨hsecond, _ | _⟩⟩
  exact ⟨_, _, _, _, stream, hcomposite, hclaim, hfirst, hsecond, hstream, hbreak,
    hfeed (List.forall_mem_cons.mpr
      ⟨⟨_, _, hcomposite⟩, List.forall_mem_singleton.mpr ⟨_, _, hclaim⟩⟩)⟩

/-- A definition that was refused, with a message that ends in a line separator. -/
def refused : Crd where
  apiVersion := Crd.generatedApiVersion
  kind := Crd.generatedKind
  metadata := { name := "sizes.example.org" }
  spec :=
    { group := "example.org", names := { kind := "Size", plural := "sizes" }, scope := .cluster,
      versions := [] }
  status := some { conditions :=
    [{ type := "NamesAccepted", status := .false, message := some "taken\n\u2028" }] }

/-- **Two documents may come out as one.** The first of them ends with the line separator of a
message, so that the three hyphens behind it stand on no line of their own. -/
theorem refused_not_taken_apart : ∃ text stream, refused.render .yaml = some text
    ∧ Crd.renderAll .yaml [refused, refused] = some stream
    ∧ documents (· == '\n') stream = [stream] ∧ [stream] ≠ [text, text] := by
  obtain ⟨text, htext⟩ := refused.exists_render .yaml
  obtain ⟨ms, hms, rfl⟩ := render_yaml_eq_some_iff.mp htext
  let stream := "---\n".intercalate [yamlLines (.object ms), yamlLines (.object ms)]
  have hstream : Crd.renderAll .yaml [refused, refused] = some stream := by
    rw [Crd.renderAll, List.mapM_cons, List.mapM_cons, List.mapM_nil, htext]
    · rfl
    · simp
  have hchars : stream.toList
      = document (.object ms) ++ ("---\n".toList ++ document (.object ms)) := by
    simp only [stream, String.intercalate_cons_cons, String.intercalate_singleton,
      String.toList_append, yamlLines, String.toList_ofList, List.append_assoc]
  -- No line of the stream is a mark, so it is not split at all.
  have hlines : ((Crd.form.encode refused).map fun v =>
      (lines (· == '\n') (document v ++ ("---\n".toList ++ document v))).all
        (!isMark (· == '\n') ·)) = some true := by
    decide +kernel
  rw [hms, Option.map_some, Option.some.injEq, List.all_eq_true] at hlines
  refine ⟨_, stream, htext, hstream, ?_, by simp⟩
  rw [documents, hchars, List.splitOnP_eq_singleton, List.map_singleton, flatten_lines, ← hchars,
    String.ofList_toList]
  exact fun l hl => by simpa using hlines l hl

end CompositeCrd
