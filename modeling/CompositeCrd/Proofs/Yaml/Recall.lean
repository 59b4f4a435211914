import CompositeCrd.Proofs.Json.Record
import CompositeCrd.Proofs.Yaml.Entries
import CompositeCrd.Proofs.Yaml.Reader

/-!
# Records that are written as settings

A record of texts, truth values and lists of texts is written as settings, one for each of its
fields. What a codec writes so is recalled by a reader (`Codec.Recalled`) if the reader takes the
value from the node of the setting. A record is recalled if its fields are, and then a reader
takes the record from the document that is written for it (`exists_ofText?_document`).
-/

namespace CompositeCrd

open Json (Codec encodeFields)
open Yaml (Node Reader Setting Steps Word settings settingEntry textNode)

variable {α β σ : Type}

/-! ### Values -/

namespace Json.Codec

variable {c : Codec α} {r : Reader α}

/-- What the codec writes as a text is read from that text, however it is written. -/
def RecalledText (c : Codec α) (r : Reader α) : Prop :=
  ∀ a, ∃ s : String, c.encode a = some (.string s)
    ∧ ∀ anchors depth, r.read anchors depth (textNode s.toList) = pure a

/-- **What the codec writes as a setting is read from that setting.** -/
def Recalled (c : Codec α) (r : Reader α) : Prop :=
  ∀ a, ∃ s : Setting, c.encode a = some s.value
    ∧ ∀ anchors depth, r.read anchors (depth + 1) s.node = pure a

/-- A text that is recalled is recalled as a setting. -/
theorem RecalledText.recalled (h : c.RecalledText r) : c.Recalled r := by
  intro a
  obtain ⟨s, hs, hread⟩ := h a
  exact ⟨.text s, hs, fun anchors depth => hread anchors (depth + 1)⟩

/-- A text is recalled as it was written. -/
theorem text_recalled : text.RecalledText .text := by
  intro s
  refine ⟨s, rfl, fun anchors depth => ?_⟩
  change (pure (String.ofList s.toList) : Steps String) = pure s
  rw [String.ofList_toList]

/-- A variant is recalled by its spelling. -/
theorem spelled_recalled [Spelled α] (h : ∀ a : α, Spelled.ofText? (Spelled.spell a) = some a) :
    (spelled : Codec α).RecalledText .spelled := by
  intro a
  refine ⟨Spelled.spell a, rfl, fun anchors depth => ?_⟩
  change Yaml.ofOption (Spelled.ofText? (String.ofList (Spelled.spell a).toList)) = pure a
  rw [String.ofList_toList, h]
  rfl

/-- A flag is recalled by its word. -/
theorem flag_recalled : flag.Recalled .flag := by
  intro b
  refine ⟨.flag b, rfl, fun anchors depth => ?_⟩
  cases b <;> rfl

/-- A list is recalled text by text. -/
theorem list_recalled (h : c.RecalledText r) : (list c).Recalled (.list r) := by
  intro as
  -- An item `a` is written as the text `f a`.
  choose f hencode hread using h
  refine ⟨.texts (as.map f), ?_, fun anchors depth => ?_⟩
  · have hitems : as.mapM c.encode = some (as.map fun a => .string (f a)) := by
      rw [funext hencode]
      exact List.mapM_pure
    change (as.mapM c.encode).map _ = _
    rw [hitems, Option.map_some, Setting.value, List.map_map]
    rfl
  · change ((as.map f).map fun s => textNode s.toList).mapM (r.read anchors depth) = pure as
    rw [List.map_map, List.mapM_map]
    have hitems : (r.read anchors depth ∘ ((fun s => textNode s.toList) ∘ f)) = pure :=
      funext fun a => hread a anchors depth
    rw [hitems]
    exact (List.mapM_pure (f := id)).trans (congrArg pure (List.map_id as))

end Json.Codec

/-! ### Records -/

namespace Fields

/-- **Fields that are written as settings**, each under a word, and read back from them. -/
inductive Recalled : {σ β : Type} → Fields Codec σ β → Fields Reader σ β → Prop
  | done : Recalled .done .done
  | field {α β σ : Type} {name : String} {c : Codec α} {r : Reader α} {absent absent' : Option α}
    {omits : α → Bool} {f : Fields Codec σ β} {g : Fields Reader σ β}
    (word : Word name.toList) (codec : c.Recalled r) (others : Recalled f g) :
    Recalled (.field name c absent (fun _ => false) f) (.field name r absent' omits g)

variable {name : String} {r : Reader α} {absent : Option α} {omits : α → Bool}
  {f : Fields Codec σ β} {g : Fields Reader σ β} {anchors : List (Nat × Node)} {depth : Nat}
  {slots : σ}

/-- The first setting is read into its field, or passed over. -/
theorem fill_setting (m : String × Setting) (es : List (Node × Node)) :
    Reader.fill g anchors depth (settingEntry m :: es) slots
      = match g.takeOne anchors depth m.1 m.2.node slots with
        | some filled => filled >>= Reader.fill g anchors depth es
        | none => Reader.fill g anchors depth es slots := by
  change (match g.takeOne anchors depth (String.ofList m.1.toList) m.2.node slots with
    | some filled => filled >>= Reader.fill g anchors depth es
    | none => Reader.fill g anchors depth es slots) = _
  rw [String.ofList_toList]

/-- Settings of other fields pass the slot of the first field by. -/
theorem fill_of_not_mem {ms : List (String × Setting)} (h : name ∉ ms.map Prod.fst)
    (slot : Option α) :
    Reader.fill (.field name r absent omits g) anchors depth (ms.map settingEntry) (slot, slots)
      = Reader.fill g anchors depth (ms.map settingEntry) slots
        >>= fun slots => pure (slot, slots) := by
  induction ms generalizing slots with
  | nil => rfl
  -- No setting has the name, so the slot is carried along.
  | cons m ms ih =>
    rw [List.map_cons, List.mem_cons, not_or] at h
    rw [List.map_cons, fill_setting, fill_setting, takeOne_of_ne h.1]
    cases g.takeOne anchors depth m.1 m.2.node slots with
    | none => exact ih h.2
    | some filled =>
      change (filled >>= fun slots => pure (slot, slots)) >>= _ = (filled >>= _) >>= _
      rw [bind_assoc, bind_assoc]
      refine congrArg (filled >>= ·) (funext fun slots => ?_)
      rw [pure_bind]
      exact ih h.2

/-- **The settings that a record is written as fill its slots.** -/
theorem Recalled.exists_settings (h : Recalled f g) (hnames : f.names.Nodup) (b : β) :
    ∃ ms : List (String × Setting), encodeFields f b = some (ms.map (Prod.map id Setting.value))
      ∧ ms.map Prod.fst = f.names ∧ (∀ m ∈ ms, Word m.1.toList)
      ∧ ∀ anchors depth, ∃ slots,
        Reader.fill g anchors (depth + 1) (ms.map settingEntry) g.empty = pure slots
          ∧ g.finish slots = .ok b := by
  induction h with
  | done => exact ⟨[], rfl, rfl, by simp, fun _ _ => ⟨(), rfl, rfl⟩⟩
  | @field α β σ name c r absent absent' omits f g hword hcodec hothers ih =>
    obtain ⟨a, b⟩ := b
    obtain ⟨hname, hnames⟩ := List.nodup_cons.mp hnames
    -- The first field is a setting that is read back; the others follow by induction.
    obtain ⟨s, hs, hread⟩ := hcodec a
    obtain ⟨ms, hms, hkeys, hwords, hfill⟩ := ih hnames b
    refine ⟨(name, s) :: ms, ?_, congrArg (name :: ·) hkeys,
      List.forall_mem_cons.mpr ⟨hword, hwords⟩, fun anchors depth => ?_⟩
    · rw [encodeFields, hms]
      change Option.bind (c.encode a) _ = _
      rw [hs]
      rfl
    · -- The first setting fills the first slot, and the others leave it as it is.
      obtain ⟨slots, hslots, hfinish⟩ := hfill anchors depth
      refine ⟨(some a, slots), ?_, by simp only [finish, Option.some_or, hfinish]⟩
      rw [List.map_cons, fill_setting, Fields.empty, takeOne_self, hread]
      dsimp only
      rw [pure_bind, pure_bind, fill_of_not_mem (hkeys ▸ hname), hslots, pure_bind]

end Fields

namespace Json.Codec

/-- **A record is read from the document that is written for it**, if its fields are settings. -/
theorem exists_ofText?_document {f : Fields Codec σ β} {g : Fields Reader σ β} {make : β → α}
    {split : α → β} (h : f.Recalled g) (hnames : f.names.Nodup) (hne : f.names ≠ [])
    (hmake : ∀ a, make (split a) = a) (a : α) :
    ∃ v, (record f make split).encode a = some v
      ∧ (Reader.record g make).ofText? (String.ofList (Yaml.document v)) = some a := by
  -- The record is written as one setting for each field.
  obtain ⟨ms, hms, hkeys, hwords, hfill⟩ := h.exists_settings hnames (split a)
  have hms_ne : ms ≠ [] := by
    rintro rfl
    exact hne hkeys.symm
  refine ⟨settings ms, ?_, ?_⟩
  · change (encodeFields f (split a)).map _ = _
    rw [hms]
    rfl
  · -- The record is one of the levels that a document may have.
    let root : Node := .mapping none none (ms.map settingEntry)
    obtain ⟨slots, hslots, hfinish⟩ := hfill root.anchored.reverse 126
    have hread : (Reader.record g make).read root.anchored.reverse Yaml.maxDepth root = pure a := by
      change (Reader.fill g root.anchored.reverse 127 (ms.map settingEntry) g.empty
        >>= Reader.finish g make) = _
      rw [hslots, pure_bind, Reader.finish, hfinish]
      exact congrArg pure (hmake a)
    rw [Reader.ofText?, String.toList_ofList, Yaml.ofText?_settings hms_ne hwords]
    change ((Reader.record g make).read root.anchored.reverse Yaml.maxDepth root).run'
      (Yaml.aliasLimit root) = some a
    rw [hread]
    rfl

end Json.Codec

end CompositeCrd
