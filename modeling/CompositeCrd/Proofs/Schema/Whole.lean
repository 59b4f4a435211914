import CompositeCrd.Crd
import CompositeCrd.Proofs.Json.Whole
import CompositeCrd.Proofs.Schema.Regular

/-!
# Schemas and definitions are read to the end

The reader of schema nodes is thorough (`Schema.codec_thorough`), although it reads the values
of some keywords twice and of others only as long as one of several shapes fits. With it the
readers of all parts of a custom resource definition are (`Crd.form_thorough`).
-/

namespace CompositeCrd

open Json Json.Codec

variable {depth : Nat}

namespace Schema

/-- A tree that is read as a node, as a list of nodes or as a property tree can be passed
over. -/
structure ReadsThrough (t : Tree) : Prop where
  node : ∀ ⦃depth n⦄, ofTree depth t = .ok n → t.skip = .ok ()
  list : ∀ ⦃depth ss⦄, listOfTree depth t = .ok ss → t.skip = .ok ()
  tree : ∀ ⦃depth m⦄, tableOfTree depth t = .ok m → t.skip = .ok ()

/-- The value of a keyword is read to its end. -/
theorem ReadsThrough.slot {t : Tree} (h : ReadsThrough t) {kw : Keyword} {a : kw.Slot}
    (hread : kw.read depth t (readings t) = .ok a) : t.skip = .ok () := by
  cases kw with
  | type | description | format => exact skip_of_optional (fun _ => skip_of_text) hread
  | preserveUnknownFields => exact skip_of_optional (fun _ => skip_of_flag) hread
  | nullable =>
    obtain ⟨b, hb, -⟩ := map_eq_ok.mp hread
    exact skip_of_optional (fun _ => skip_of_flag) hb
  | default => exact skip_of_optional (fun _ => Tree.skip_of_value) hread
  | properties =>
    obtain ⟨m, hm, -⟩ := map_eq_ok.mp hread
    refine skip_of_optional ?_ hm
    exact fun m hm => h.tree hm
  | required =>
    obtain ⟨names, hnames, -⟩ := map_eq_ok.mp hread
    exact skip_of_optional (fun _ => skip_of_list fun _ _ _ => skip_of_text) hnames
  | enumValues =>
    obtain ⟨vs, hvs, -⟩ := map_eq_ok.mp hread
    exact skip_of_optional (fun _ => skip_of_list fun _ _ _ => Tree.skip_of_value) hvs
  | items | additionalProperties =>
    -- Whatever shape fits, the value was read as plain JSON before.
    refine skip_of_optional (fun rule hrule => ?_) hread
    obtain ⟨v, hv, -⟩ := bind_eq_ok.mp hrule
    exact Tree.skip_of_value hv

/-- An entry that has been read has been read to its end. -/
theorem ReadsThrough.entry {t : Tree} (h : ReadsThrough t) {s : Schema}
    (hread : readEntry depth t = .ok s) : t.skip = .ok () := by
  by_cases ht : t = .null
  · subst ht
    rfl
  · rw [readEntry_of_ne ht] at hread
    exact h.node hread

mutual

/-- A tree that is read as a node, a list of nodes or a table is read to its end. -/
theorem Tree.readsThrough : ∀ t : Tree, ReadsThrough t
  | .object ms => by
    refine ⟨fun depth n h => ?_, fun depth ss h => ?_, fun depth m h => ?_⟩
    · obtain ⟨_, depth, ⟨⟩, rfl, h⟩ := ofTree_eq_ok_iff.mp h
      exact (Members.readsThrough ms).1 h
    · exact absurd h (by simp [listOfTree])
    · obtain ⟨_, depth, ⟨⟩, rfl, h⟩ := tableOfTree_eq_ok_iff.mp h
      exact (Members.readsThrough ms).2 h
  | .array items => by
    refine ⟨fun depth n h => ?_, fun depth ss h => ?_, fun depth m h => ?_⟩
    · exact absurd h (by simp [ofTree])
    · obtain ⟨_, depth, ⟨⟩, rfl, h⟩ := listOfTree_eq_ok_iff.mp h
      exact Items.readsThrough items h
    · exact absurd h (by simp [tableOfTree])
  -- What has no parts has nothing left to read.
  | .null | .bool _ | .number _ | .string _ =>
    ⟨fun _ _ _ => rfl, fun _ _ _ => rfl, fun _ _ _ => rfl⟩
  | .broken _ _ => by
    refine ⟨fun depth n h => ?_, fun depth ss h => ?_, fun depth m h => ?_⟩
    · exact absurd h (by simp [ofTree])
    · exact absurd h (by simp [listOfTree])
    · exact absurd h (by simp [tableOfTree])

/-- Items are read to the last one. -/
theorem Items.readsThrough : ∀ (items : Items) {depth : Nat} {ss : List Schema},
    listOfItems depth items = .ok ss → items.skip = .ok ()
  | .closed, _, _, _ => rfl
  | .broken _, _, _, h => absurd h (by simp [listOfItems])
  | .item t rest, depth, ss, h => by
    obtain ⟨s, ss, rfl, hs, hss⟩ := listOfItems_item_eq_ok_iff.mp h
    exact skip_item.mpr ⟨(Tree.readsThrough t).node hs, Items.readsThrough rest hss⟩

/-- Members are read to the last one, each as a keyword, a value or an entry. -/
theorem Members.readsThrough : ∀ ms : Members,
    (∀ {depth : Nat} {s : Schema} {seen : List Keyword} {n : Schema},
      ofMembers depth s seen ms = .ok n → ms.skip = .ok ())
    ∧ ∀ {depth : Nat} {m m' : PropertyTree}, tableOfMembers depth m ms = .ok m' →
      ms.skip = .ok ()
  | .closed => ⟨fun _ => rfl, fun _ => rfl⟩
  | .broken _ | .noKey _ | .badKey _ _ => by
    refine ⟨fun h => ?_, fun h => ?_⟩
    · exact absurd h (by simp [ofMembers])
    · exact absurd h (by simp [tableOfMembers])
  | .member key t rest => by
    have htree := Tree.readsThrough t
    refine ⟨fun {depth s seen n} h => ?_, fun {depth m m'} h => ?_⟩
    · -- A member with a slot is read by its keyword, any other as a value.
      obtain ⟨k, v, -, -, hv, h⟩ | ⟨kw, a, -, ha, h⟩ := ofMembers_member_cases h
      · exact skip_member.mpr ⟨Tree.skip_of_value hv, (Members.readsThrough rest).1 h⟩
      · exact skip_member.mpr ⟨htree.slot ha, (Members.readsThrough rest).1 h⟩
    · obtain ⟨k, s, -, hs, h⟩ := tableOfMembers_member_eq_ok_iff.mp h
      exact skip_member.mpr ⟨htree.entry hs, (Members.readsThrough rest).2 h⟩

end

theorem codec_thorough : codec.Thorough :=
  fun _ t _ h => (Tree.readsThrough t).node h

end Schema

/-! ### The parts of a custom resource definition -/

theorem ObjectMeta.form_thorough : (form : Codec ObjectMeta).Thorough := by
  have howner : (OwnerReference.form : Codec OwnerReference).Thorough :=
    record_thorough ⟨text_thorough, text_thorough, text_thorough, text_thorough,
      nullable_thorough flag_thorough, nullable_thorough flag_thorough, trivial⟩
  exact record_thorough ⟨text_thorough, nullable_thorough text_thorough,
    map_thorough text_thorough, map_thorough text_thorough, list_thorough howner, trivial⟩

theorem ResourceNames.form_thorough : (form : Codec ResourceNames).Thorough :=
  record_thorough ⟨text_thorough, text_thorough, text_thorough, text_thorough,
    list_thorough text_thorough, list_thorough text_thorough, trivial⟩

theorem PrinterColumn.form_thorough : (form : Codec PrinterColumn).Thorough :=
  record_thorough ⟨text_thorough, text_thorough, text_thorough, nullable_thorough text_thorough,
    nullable_thorough text_thorough, nullable_thorough int32_thorough, trivial⟩

theorem CrdVersion.form_thorough : form.Thorough := by
  have hvalidation : validationForm.Thorough := record_thorough ⟨Schema.codec_thorough, trivial⟩
  have hmarker : markerForm.Thorough := record_thorough trivial
  have hsubresources : subresourcesForm.Thorough :=
    record_thorough ⟨nullable_thorough hmarker, trivial⟩
  exact record_thorough ⟨text_thorough, flag_thorough, flag_thorough,
    list_thorough PrinterColumn.form_thorough, hvalidation, hsubresources, trivial⟩

theorem CrdSpec.form_thorough : form.Thorough :=
  record_thorough ⟨text_thorough, ResourceNames.form_thorough, spelled_thorough,
    list_thorough CrdVersion.form_thorough, trivial⟩

theorem CrdStatus.form_thorough : (form : Codec CrdStatus).Thorough := by
  have hcondition : (Condition.form : Codec Condition).Thorough :=
    record_thorough ⟨text_thorough, spelled_thorough, nullable_thorough text_thorough,
      nullable_thorough text_thorough, nullable_thorough text_thorough, trivial⟩
  exact record_thorough ⟨list_thorough hcondition, trivial⟩

/-- **A definition is read to its end.** -/
theorem Crd.form_thorough : form.Thorough :=
  record_thorough ⟨text_thorough, text_thorough, ObjectMeta.form_thorough, CrdSpec.form_thorough,
    nullable_thorough CrdStatus.form_thorough, trivial⟩

end CompositeCrd
