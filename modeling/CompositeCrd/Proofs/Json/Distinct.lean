import CompositeCrd.Proofs.Json.Grammar

/-!
# Texts tell values apart

Two numbers may come back from their texts as one number, but they are never written alike
(`Number.Proper.chars_inj`), and neither are two values (`Value.Proper.compact_inj`).

The common text of two values is read as one tree, so they are of the same kind
(`tree_eq_of_write_eq`). What is in them is compared part by part. Where a part ends is not known
beforehand, so a part is compared together with all that stands behind it (`Value.ToldApart`).
-/

namespace CompositeCrd.Json

variable {v w : Value} {items items' : List Value} {members members' : List (String × Value)}
  {cs cs' : List Char}

theorem symbols_injective : Function.Injective symbols :=
  List.map_injective_iff.mpr fun _ _ => Symbol.char.inj

/-- What is read from a common text. -/
theorem tree_eq_of_write_eq (hv : v.Proper) (hw : w.Proper) (hcs : Stops (symbols cs))
    (hcs' : Stops (symbols cs')) (heq : v.write cs = w.write cs') :
    v.echo.tree = w.echo.tree ∧ cs = cs' := by
  have hread := value_of_spells v.echo _ (hv.writtenBack hcs) le_rfl
  have hread' := value_of_spells w.echo _ (hw.writtenBack hcs') le_rfl
  rw [heq, hread'.1, Prod.mk.injEq] at hread
  exact ⟨hread.1.1.symm, symbols_injective hread.1.2.symm⟩

/-- The text of the value is that of no other value, wherever it stands. -/
def Value.ToldApart (v : Value) : Prop :=
  ∀ ⦃w : Value⦄ ⦃cs cs' : List Char⦄, w.Proper → Stops (symbols cs) → Stops (symbols cs') →
    v.write cs = w.write cs' → v = w ∧ cs = cs'

/-- Two quoted texts are told apart, and so is what follows them. -/
theorem writeText_inj {s t : String} (h : writeText s cs = writeText t cs') : s = t ∧ cs = cs' := by
  have hread : ∀ (s : String) (cs : List Char),
      readText (symbols (writeText s cs)).tail = .ok (s.toList, symbols cs) := by
    intro s cs
    rw [writeText_append]
    exact readText_escaped s.toList (symbols cs)
  have hs := hread s cs
  rw [h, hread t cs', Except.ok.injEq, Prod.mk.injEq] at hs
  exact ⟨String.toList_injective hs.1.symm, symbols_injective hs.2.symm⟩

/-- Items are told apart one by one: each is followed by a comma or by the bracket. -/
theorem items_toldApart (h : ∀ v ∈ items, v.ToldApart) (h' : ∀ v ∈ items', v.Proper)
    (heq : writeItems items false (']' :: cs) = writeItems items' false (']' :: cs')) :
    items = items' := by
  induction items generalizing items' with
  | nil =>
    cases items' with
    | nil => rfl
    | cons w items' => exact absurd heq (by simp [writeItems])
  | cons v items ih =>
    obtain ⟨hv, hitems⟩ := List.forall_mem_cons.mp h
    cases items' with
    | nil => exact absurd heq (by simp [writeItems])
    | cons w items' =>
      obtain ⟨hw, hitems'⟩ := List.forall_mem_cons.mp h'
      have hitem : v.write (writeItems items false (']' :: cs))
          = w.write (writeItems items' false (']' :: cs')) := by
        simpa [writeItems] using heq
      obtain ⟨rfl, hrest⟩ := hv hw (stops_writeItems items cs) (stops_writeItems items' cs') hitem
      rw [ih hitems hitems' hrest]

theorem members_toldApart (h : ∀ e ∈ members, e.2.ToldApart) (h' : ∀ e ∈ members', e.2.Proper)
    (heq : writeMembers members false ('\x7d' :: cs)
      = writeMembers members' false ('\x7d' :: cs')) : members = members' := by
  induction members generalizing members' with
  | nil =>
    cases members' with
    | nil => rfl
    | cons e members' => exact absurd heq (by simp [writeMembers])
  | cons e members ih =>
    obtain ⟨k, v⟩ := e
    obtain ⟨hv, hmembers⟩ := List.forall_mem_cons.mp h
    cases members' with
    | nil => exact absurd heq (by simp [writeMembers])
    | cons e' members' =>
      obtain ⟨k', w⟩ := e'
      obtain ⟨hw, hmembers'⟩ := List.forall_mem_cons.mp h'
      have hmember : writeText k (':' :: v.write (writeMembers members false ('\x7d' :: cs)))
          = writeText k' (':' :: w.write (writeMembers members' false ('\x7d' :: cs'))) := by
        simpa [writeMembers] using heq
      -- First the keys, and behind the colon the values with the members that follow.
      obtain ⟨rfl, hvalue⟩ := writeText_inj hmember
      obtain ⟨rfl, hrest⟩ := hv hw (stops_writeMembers members cs)
        (stops_writeMembers members' cs') (List.cons.inj hvalue).2
      rw [ih hmembers hmembers' hrest]

/-- **The text of a value is that of no other value.** -/
theorem Value.Proper.toldApart (hv : v.Proper) : v.ToldApart := by
  induction hv with
  | null =>
    intro w cs cs' hw hcs hcs' heq
    obtain ⟨htree, rfl⟩ := tree_eq_of_write_eq .null hw hcs hcs' heq
    cases w with
    | null => exact ⟨rfl, rfl⟩
    | _ => exact absurd htree (by simp [Value.tree])
  | bool b =>
    intro w cs cs' hw hcs hcs' heq
    obtain ⟨htree, rfl⟩ := tree_eq_of_write_eq (.bool b) hw hcs hcs' heq
    cases w with
    | bool b' => simpa [Value.tree] using htree
    | _ => exact absurd htree (by simp [Value.tree])
  | @number n hn =>
    intro w cs cs' hw hcs hcs' heq
    obtain ⟨htree, rfl⟩ := tree_eq_of_write_eq (.number hn) hw hcs hcs' heq
    cases w with
    | number n' =>
      have hchars : symbols n.chars ++ symbols cs = symbols n'.chars ++ symbols cs := by
        rw [← symbols_append, ← symbols_append]
        exact congrArg symbols heq
      obtain ⟨rfl, -⟩ := hn.chars_inj (Value.proper_number.mp hw) hcs hcs' hchars
      exact ⟨rfl, rfl⟩
    | _ => exact absurd htree (by simp [Value.tree])
  | string s =>
    intro w cs cs' hw hcs hcs' heq
    obtain ⟨htree, rfl⟩ := tree_eq_of_write_eq (.string s) hw hcs hcs' heq
    cases w with
    | string s' => simpa [Value.tree] using htree
    | _ => exact absurd htree (by simp [Value.tree])
  | @array items hitems ih =>
    intro w cs cs' hw hcs hcs' heq
    obtain ⟨htree, rfl⟩ := tree_eq_of_write_eq (.array hitems) hw hcs hcs' heq
    cases w with
    | array items' =>
      suffices h : writeItems items false (_ :: cs) = writeItems items' false (_ :: cs) from
        ⟨congrArg Value.array (items_toldApart ih (Value.proper_array.mp hw) h), rfl⟩
      -- Both lists are empty, or both have a first item, which has no comma in front of it.
      cases items <;> cases items'
      · rfl
      · exact absurd htree (by simp [Value.tree, itemsTree])
      · exact absurd htree (by simp [Value.tree, itemsTree])
      · exact congrArg (List.cons ',') (List.cons.inj heq).2
    | _ => exact absurd htree (by simp [Value.tree])
  | @object members hmembers ih =>
    intro w cs cs' hw hcs hcs' heq
    obtain ⟨htree, rfl⟩ := tree_eq_of_write_eq (.object hmembers) hw hcs hcs' heq
    cases w with
    | object members' =>
      suffices h : writeMembers members false (_ :: cs) = writeMembers members' false (_ :: cs) from
        ⟨congrArg Value.object (members_toldApart ih (Value.proper_object.mp hw) h), rfl⟩
      cases members <;> cases members'
      · rfl
      · exact absurd htree (by simp [Value.tree, membersTree])
      · exact absurd htree (by simp [Value.tree, membersTree])
      · exact congrArg (List.cons ',') (List.cons.inj heq).2
    | _ => exact absurd htree (by simp [Value.tree])

/-- Two values with one compact text are one value. -/
theorem Value.Proper.compact_inj (hv : v.Proper) (hw : w.Proper) (h : v.compact = w.compact) :
    v = w := by
  have hends : v = w ∧ ([] : List Char) = [] :=
    hv.toldApart hw stops_nil stops_nil (String.ofList_injective h)
  exact hends.1

end CompositeCrd.Json
