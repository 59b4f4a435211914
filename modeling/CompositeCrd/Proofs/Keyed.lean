import CompositeCrd.Schema.Overlay
import Mathlib.Data.List.Forall2

/-!
# Tables by their look-ups

Tables that are sorted are determined by what their look-ups find (`Keyed.Sorted.ext`), so two
ways to build a table are compared key by key. Every operation has its look-up lemma:
`find?_insert` for one entry, `find?_overlay` for a whole layer, `find?_map` for a change of
the values.

Laying a table over another one is also how a table is read from a list of entries, and a
sorted list is already the table that it is read as (`Sorted.overlay_nil`).
-/

namespace CompositeCrd

namespace Keyed

variable {α β : Type} {k k' : String} {v : α} {m m' layer : Keyed α}

/-! ### Look-ups and keys -/

@[simp] theorem find?_nil : find? k ([] : Keyed α) = none := rfl

theorem find?_cons : find? k ((k', v) :: m) = if k' = k then some v else find? k m := rfl

theorem keys_cons {e : String × α} : keys (e :: m) = e.1 :: keys m := rfl

theorem keys_append : keys (m ++ m') = keys m ++ keys m' :=
  List.map_append

/-- A key is found unless it is not among the keys. -/
theorem find?_eq_none_iff : find? k m = none ↔ k ∉ keys m := by
  induction m with
  | nil => simp [keys]
  | cons e m ih =>
    obtain ⟨k', v⟩ := e
    rw [find?_cons, keys_cons, List.mem_cons, not_or]
    split
    · next h => simp [h]
    · next h => simp [ih, Ne.symm h]

/-- What is found is an entry. -/
theorem mem_of_find? (h : find? k m = some v) : (k, v) ∈ m := by
  induction m with
  | nil => exact absurd h (by simp)
  | cons e m ih =>
    obtain ⟨k', v'⟩ := e
    rw [find?_cons] at h
    split at h
    · next hk =>
      obtain rfl := Option.some.inj h
      exact hk ▸ List.mem_cons_self
    · exact List.mem_cons_of_mem _ (ih h)

theorem mem_keys_of_mem (h : (k, v) ∈ m) : k ∈ keys m :=
  List.mem_map.mpr ⟨(k, v), h, rfl⟩

/-- With distinct keys, every entry is found. -/
theorem find?_of_mem (hm : (keys m).Nodup) (h : (k, v) ∈ m) : find? k m = some v := by
  induction m with
  | nil => exact absurd h List.not_mem_nil
  | cons e m ih =>
    obtain ⟨k', v'⟩ := e
    rw [keys_cons, List.nodup_cons] at hm
    rw [find?_cons]
    -- The entry is the first one, or no other has its key before it.
    rcases List.mem_cons.mp h with h | h
    · obtain ⟨rfl, rfl⟩ := Prod.mk.inj h
      exact if_pos rfl
    · have hne : k' ≠ k := by
        rintro rfl
        exact hm.1 (mem_keys_of_mem h)
      rw [if_neg hne, ih hm.2 h]

/-- The second map counts where the first has nothing. -/
theorem find?_append : find? k (m ++ m') = (find? k m).or (find? k m') := by
  induction m with
  | nil => rfl
  | cons e m ih =>
    obtain ⟨k', v⟩ := e
    rw [List.cons_append, find?_cons, find?_cons]
    split
    · rfl
    · exact ih

/-- Values are changed where they are found. -/
theorem find?_map (f : α → β) : find? k (m.map fun e => (e.1, f e.2)) = (find? k m).map f := by
  induction m with
  | nil => rfl
  | cons e m ih =>
    obtain ⟨k', v⟩ := e
    rw [List.map_cons, find?_cons, find?_cons]
    split
    · rfl
    · exact ih

theorem keys_map (f : α → β) : keys (m.map fun e => (e.1, f e.2)) = keys m := by
  simp [keys, Function.comp_def]

/-! ### Sorted tables -/

theorem sorted_iff_keys : Sorted m ↔ (keys m).Pairwise (· < ·) :=
  List.pairwise_map.symm

theorem sorted_map_iff (f : α → β) : Sorted (m.map fun e => (e.1, f e.2)) ↔ Sorted m := by
  rw [sorted_iff_keys, keys_map, ← sorted_iff_keys]

/-- Keys in strict order are distinct. -/
theorem Sorted.nodup (h : Sorted m) : (keys m).Nodup := by
  rw [List.nodup_iff_pairwise_ne]
  refine (sorted_iff_keys.mp h).imp fun {k k'} hlt heq => ?_
  rw [heq] at hlt
  exact String.lt_irrefl _ hlt

theorem sorted_cons_iff : Sorted ((k, v) :: m) ↔ (∀ k' ∈ keys m, k < k') ∧ Sorted m := by
  rw [sorted_iff_keys, sorted_iff_keys, keys_cons, List.pairwise_cons]

/-- The first key of a sorted table is a key of nothing else in it. -/
theorem Sorted.not_mem_keys (h : Sorted ((k, v) :: m)) : k ∉ keys m := fun hk =>
  String.lt_irrefl _ ((sorted_cons_iff.mp h).1 k hk)

/-- Sorted tables with equal look-ups start alike: each finds the first key of the other, so
neither of the two keys is less. -/
theorem Sorted.first_eq {v' : α} (h : Sorted ((k, v) :: m)) (h' : Sorted ((k', v') :: m'))
    (heq : ∀ k'', find? k'' ((k, v) :: m) = find? k'' ((k', v') :: m')) : k = k' ∧ v = v' := by
  have hk := heq k
  have hk' := heq k'
  rw [find?_cons, if_pos rfl, find?_cons] at hk
  rw [find?_cons, find?_cons, if_pos rfl] at hk'
  by_cases hkey : k = k'
  · rw [if_pos hkey.symm] at hk
    exact ⟨hkey, Option.some.inj hk⟩
  · rw [if_neg (Ne.symm hkey)] at hk
    rw [if_neg hkey] at hk'
    -- Otherwise each first key is found behind the other one, and is greater.
    have hlt := (sorted_cons_iff.mp h).1 k' (mem_keys_of_mem (mem_of_find? hk'))
    have hlt' := (sorted_cons_iff.mp h').1 k (mem_keys_of_mem (mem_of_find? hk.symm))
    exact absurd (String.lt_trans hlt hlt') (String.lt_irrefl _)

/-- **Sorted tables with equal look-ups are equal.** -/
theorem Sorted.ext (h : Sorted m) (h' : Sorted m') (heq : ∀ k, find? k m = find? k m') :
    m = m' := by
  induction m generalizing m' with
  | nil =>
    cases m' with
    | nil => rfl
    | cons e m' => exact absurd (heq e.1) (by simp [find?])
  | cons e m ih =>
    cases m' with
    | nil => exact absurd (heq e.1) (by simp [find?])
    | cons e' m' =>
      obtain ⟨k, v⟩ := e
      obtain ⟨k', v'⟩ := e'
      obtain ⟨rfl, rfl⟩ := h.first_eq h' heq
      congr 1
      -- The rests agree too: the common first key is in neither of them.
      refine ih (sorted_cons_iff.mp h).2 (sorted_cons_iff.mp h').2 fun k'' => ?_
      by_cases hk : k = k''
      · subst hk
        rw [find?_eq_none_iff.mpr h.not_mem_keys, find?_eq_none_iff.mpr h'.not_mem_keys]
      · have hrest := heq k''
        rwa [find?_cons, if_neg hk, find?_cons, if_neg hk] at hrest

/-- Replacing a value keeps the keys. -/
theorem Sorted.keys_insert_of_mem (h : Sorted m) (hk : k ∈ keys m) :
    keys (Keyed.insert k v m) = keys m := by
  induction m with
  | nil => exact absurd hk List.not_mem_nil
  | cons e m ih =>
    obtain ⟨k', v'⟩ := e
    obtain ⟨hfirst, hrest⟩ := sorted_cons_iff.mp h
    rw [keys_cons, List.mem_cons] at hk
    rw [Keyed.insert]
    -- The key is the first one, or greater, and the insertion goes on.
    rcases hk with rfl | hk
    · rw [if_neg (String.lt_irrefl _), if_pos rfl]
      rfl
    · have hlt : k' < k := hfirst k hk
      have hne : k ≠ k' := by
        rintro rfl
        exact String.lt_irrefl _ hlt
      rw [if_neg (String.lt_asymm hlt), if_neg hne, keys_cons, ih hrest hk, keys_cons]

/-! ### Layers -/

@[simp] theorem overlay_nil : overlay m [] = m := rfl

theorem overlay_cons {e : String × α} :
    overlay m (e :: layer) = overlay (insert e.1 e.2 m) layer := rfl

/-- A map stays in order under a layer. -/
theorem Sorted.overlay (h : Sorted m) : Sorted (Keyed.overlay m layer) := by
  induction layer generalizing m with
  | nil => exact h
  | cons e layer ih => exact ih h.insert

theorem sorted_ofList (entries : List (String × α)) : Sorted (ofList entries) :=
  sorted_nil.overlay

/-- **A layer wins where it has an entry**, and elsewhere the table below shows. -/
theorem find?_overlay (h : (keys layer).Nodup) :
    find? k (overlay m layer) = (find? k layer).or (find? k m) := by
  induction layer generalizing m with
  | nil => rfl
  | cons e layer ih =>
    obtain ⟨k', v⟩ := e
    rw [keys_cons, List.nodup_cons] at h
    rw [overlay_cons, ih h.2, find?_insert, find?_cons]
    -- The key of the first entry does not occur again in the layer, so its entry stays.
    split
    · next hk =>
      rw [find?_eq_none_iff.mpr (hk ▸ h.1)]
      rfl
    · rfl

/-- Only the empty layer on the empty map is empty. -/
theorem overlay_eq_nil_iff : overlay m layer = [] ↔ m = [] ∧ layer = [] := by
  induction layer generalizing m with
  | nil => rw [overlay_nil]; exact ⟨fun h => ⟨h, rfl⟩, And.left⟩
  | cons e layer ih =>
    -- Nothing is taken out of a table.
    have hinsert : insert e.1 e.2 m ≠ [] := by
      cases m with
      | nil => simp [insert]
      | cons e' m =>
        rw [insert]
        split
        · simp
        · split <;> simp
    simp [overlay_cons, ih, hinsert]

/-- Values may be changed before or after an entry is put in. -/
theorem map_insert (f : α → β) : (insert k v m).map (fun e => (e.1, f e.2))
    = insert k (f v) (m.map fun e => (e.1, f e.2)) := by
  induction m with
  | nil => rfl
  | cons e m ih =>
    obtain ⟨k', v'⟩ := e
    rw [insert, List.map_cons, insert]
    -- Whether the key goes in front, in place, or behind depends on the keys alone.
    split
    · rfl
    · split
      · rfl
      · rw [List.map_cons, ih]

/-- Changing values commutes with layers. -/
theorem map_overlay (f : α → β) : (overlay m layer).map (fun e => (e.1, f e.2))
    = overlay (m.map fun e => (e.1, f e.2)) (layer.map fun e => (e.1, f e.2)) := by
  induction layer generalizing m with
  | nil => rfl
  | cons e layer ih => rw [overlay_cons, ih, map_insert, List.map_cons, overlay_cons]

/-- Entries come from the layer or from the table below. -/
theorem mem_overlay {e : String × α} (h : e ∈ overlay m layer) : e ∈ layer ∨ e ∈ m := by
  induction layer generalizing m with
  | nil => exact .inr h
  | cons e' layer ih =>
    -- An entry is of the rest of the layer, or it was there when the first one had been put in.
    rcases ih h with h | h
    · exact .inl (List.mem_cons_of_mem _ h)
    · rcases mem_insert h with rfl | h
      · exact .inl List.mem_cons_self
      · exact .inr h

/-- Reading the entries of a sorted table gives the table. -/
theorem Sorted.overlay_nil (h : Sorted m) : Keyed.overlay [] m = m :=
  sorted_nil.overlay.ext h fun k => by
    rw [find?_overlay h.nodup, find?_nil, Option.or_none]

/-! ### Tables in part -/

/-- Entries that are picked by their keys are found as before. -/
theorem find?_filter (p : String → Bool) (m : Keyed α) :
    find? k (m.filter fun e => p e.1) = if p k then find? k m else none := by
  induction m with
  | nil => simp [find?]
  | cons e m ih =>
    obtain ⟨k', v⟩ := e
    rw [List.filter_cons]
    -- The first entry has the key, and then the filter keeps all of that key or none.
    by_cases hk : k' = k
    · subst hk
      by_cases hp : p k' = true
      · rw [if_pos hp, if_pos hp, find?_cons, find?_cons, if_pos rfl, if_pos rfl]
      · rw [if_neg hp, ih, if_neg hp, if_neg hp]
    · rw [find?_cons, if_neg hk, ← ih]
      by_cases hp : p k' = true
      · rw [if_pos hp, find?_cons, if_neg hk]
      · rw [if_neg hp]

/-- Of entries with the same key in a layer, the last one counts. -/
theorem find?_overlay_reverse :
    find? k (overlay m layer) = (find? k layer.reverse).or (find? k m) := by
  induction layer generalizing m with
  | nil => rfl
  | cons e layer ih =>
    obtain ⟨k', v⟩ := e
    rw [overlay_cons, ih, find?_insert, List.reverse_cons, find?_append, Option.or_assoc,
      find?_cons]
    split <;> rfl

/-- A part of the entries is sorted like all of them. -/
theorem filter_overlay (p : String → Bool) (layer : Keyed α) :
    (overlay [] layer).filter (fun e => p e.1) = overlay [] (layer.filter fun e => p e.1) := by
  have hleft : Sorted ((overlay [] layer).filter fun e => p e.1) :=
    List.Pairwise.filter _ sorted_nil.overlay
  refine hleft.ext sorted_nil.overlay fun k => ?_
  rw [find?_filter, find?_overlay_reverse, find?_overlay_reverse, ← List.filter_reverse,
    find?_filter, find?_nil, Option.or_none, Option.or_none]

/-! ### Tables side by side -/

/-- Two tables that are alike entry by entry stay so with one more entry. -/
theorem forall₂_insert {R : α → β → Prop} {m : Keyed α} {m' : Keyed β} {a : α} {b : β}
    (h : List.Forall₂ (fun e e' => e'.1 = e.1 ∧ R e.2 e'.2) m m') (hab : R a b) :
    List.Forall₂ (fun e e' => e'.1 = e.1 ∧ R e.2 e'.2) (m.insert k a) (m'.insert k b) := by
  induction h with
  | nil => exact .cons ⟨rfl, hab⟩ .nil
  | @cons e e' m m' he hrest ih =>
    obtain ⟨k', a'⟩ := e
    obtain ⟨_, b'⟩ := e'
    obtain ⟨rfl, hab'⟩ := he
    rw [insert, insert]
    -- Both tables have the same keys, so the entry goes to the same place.
    split
    · exact .cons ⟨rfl, hab⟩ (.cons ⟨rfl, hab'⟩ hrest)
    · split
      · exact .cons ⟨rfl, hab⟩ hrest
      · exact .cons ⟨rfl, hab'⟩ ih

/-- They stay so with a whole layer over each of them. -/
theorem forall₂_overlay {R : α → β → Prop} {m layer : Keyed α} {m' layer' : Keyed β}
    (hm : List.Forall₂ (fun e e' => e'.1 = e.1 ∧ R e.2 e'.2) m m')
    (h : List.Forall₂ (fun e e' => e'.1 = e.1 ∧ R e.2 e'.2) layer layer') :
    List.Forall₂ (fun e e' => e'.1 = e.1 ∧ R e.2 e'.2) (overlay m layer) (overlay m' layer') := by
  induction h generalizing m m' with
  | nil => exact hm
  | @cons e e' layer layer' he _ ih =>
    obtain ⟨k, a⟩ := e
    obtain ⟨_, b⟩ := e'
    obtain ⟨rfl, hab⟩ := he
    exact ih (forall₂_insert hm hab)

end Keyed

/-- A map in order is its entries. -/
theorem SortedMap.ext {α : Type} {m m' : SortedMap α} (h : m.entries = m'.entries) : m = m' := by
  obtain ⟨entries, _⟩ := m
  obtain rfl : entries = m'.entries := h
  rfl

end CompositeCrd
