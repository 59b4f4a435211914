/-!
# Entries by key

Property trees, labels and the objects of embedded documents are tables from texts to values,
always written in ascending order of their keys. A table is a list of entries. `Keyed.insert`
keeps the order and replaces the value of a key that is present, so a table built by
insertions is sorted and holds the last value given for each key.

`find?_insert` says what an insertion does to every look-up, and `Sorted.insert` that it keeps
the order. `SortedMap` bundles a table with its order; tables nested inside their own values
carry no proof and speak of `Keyed.Sorted` instead.
-/

namespace CompositeCrd

/-- A table of entries, each under its key. -/
abbrev Keyed (α : Type) := List (String × α)

namespace Keyed

variable {α β : Type} {k k' : String} {v : α} {m : Keyed α}

/-- The value under `k`. -/
def find? (k : String) : Keyed α → Option α
  | [] => none
  | (k', v) :: m => if k' = k then some v else find? k m

/-- Puts `v` under `k`, in place of the value that was there. -/
def insert (k : String) (v : α) : Keyed α → Keyed α
  | [] => [(k, v)]
  | (k', v') :: m =>
    if k < k' then (k, v) :: (k', v') :: m
    else if k = k' then (k, v) :: m
    else (k', v') :: insert k v m

/-- The table of a list of entries: the last entry of a key counts. -/
def ofList (entries : List (String × α)) : Keyed α :=
  entries.foldl (fun m e => insert e.1 e.2 m) []

/-- The keys, in order. -/
def keys (m : Keyed α) : List String :=
  m.map (·.1)

/-- A table is sorted when its keys ascend strictly. -/
def Sorted (m : Keyed α) : Prop :=
  m.Pairwise (·.1 < ·.1)

instance : Decidable (Sorted m) :=
  inferInstanceAs (Decidable (m.Pairwise _))

/-- After an insertion, the key has the new value and every other key the value it had. -/
theorem find?_insert : find? k' (insert k v m) = if k = k' then some v else find? k' m := by
  induction m with
  | nil => simp [insert, find?]
  | cons e m ih => grind [insert, find?]

theorem mem_insert {e : String × α} (h : e ∈ insert k v m) : e = (k, v) ∨ e ∈ m := by
  induction m with
  | nil => simpa [insert] using h
  | cons e' m ih => grind [insert]

theorem Sorted.insert (h : Sorted m) : Sorted (Keyed.insert k v m) := by
  induction m with
  | nil => simp [Sorted, Keyed.insert]
  | cons e m ih =>
    obtain ⟨k', v'⟩ := e
    obtain ⟨first, rest⟩ := List.pairwise_cons.1 h
    simp only [Keyed.insert]
    split
    · refine List.pairwise_cons.2 ⟨fun e he => ?_, h⟩
      rcases List.mem_cons.1 he with rfl | he
      · assumption
      · exact String.lt_trans (by assumption) (first e he)
    · split
      · subst_vars
        exact List.pairwise_cons.2 ⟨first, rest⟩
      · refine List.pairwise_cons.2 ⟨fun e he => ?_, ih rest⟩
        rcases mem_insert he with rfl | he
        · grind
        · exact first e he

theorem sorted_nil : Sorted ([] : Keyed α) :=
  List.Pairwise.nil

end Keyed

/-- A table whose keys ascend. -/
structure SortedMap (α : Type) where
  /-- The entries. -/
  entries : Keyed α
  /-- The keys ascend strictly. -/
  sorted : Keyed.Sorted entries
deriving DecidableEq

namespace SortedMap

variable {α : Type}

/-- The table without entries. -/
def empty : SortedMap α :=
  ⟨[], Keyed.sorted_nil⟩

instance : Inhabited (SortedMap α) := ⟨empty⟩

/-- Puts `v` under `k`, in place of the value that was there. -/
def insert (k : String) (v : α) (m : SortedMap α) : SortedMap α :=
  ⟨Keyed.insert k v m.entries, m.sorted.insert⟩

/-- Whether there are no entries. -/
def isEmpty (m : SortedMap α) : Bool :=
  m.entries.isEmpty

end SortedMap

end CompositeCrd
