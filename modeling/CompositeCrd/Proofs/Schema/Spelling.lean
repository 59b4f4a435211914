import CompositeCrd.Proofs.Schema.Acceptance
import CompositeCrd.Proofs.Schema.Reread

/-!
# Nodes and the order of members

Two texts of one value differ in white space, in escapes and in the order of members. The tree
of a document shows the order only, and of that nothing is left in a node
(`ofTree_of_sorted_eq`): what is read from a tree is read from its value, and whether anything
is read at all is a matter of the value as well (`sortsAlike`).
-/

namespace CompositeCrd.Schema

open Json

variable {v v' : Value} {depth : Nat} {n : Schema}

/-! ### Acceptable values in order -/

/-- Sorting changes no verdict on a value. -/
structure SortsAlike (v : Value) : Prop where
  text : isText v.sorted = isText v
  node : acceptable v.sorted = acceptable v
  entry : acceptableEntry v.sorted = acceptableEntry v
  role : ∀ role, fits role v.sorted = fits role v

theorem sortsAlike_of_sorted_eq (h : v.sorted = v) : SortsAlike v := by
  constructor <;> simp only [h, implies_true]

theorem sortsAlike_array {vs : List Value} (h : ∀ v ∈ vs, SortsAlike v) :
    SortsAlike (.array vs) := by
  have htexts : (vs.map Value.sorted).all isText = vs.all isText := by
    rw [Bool.eq_iff_iff, List.all_eq_true, List.all_eq_true, List.forall_mem_map]
    exact forall₂_congr fun v hv => by rw [(h v hv).text]
  have hnodes : acceptableItems (vs.map Value.sorted) = acceptableItems vs := by
    rw [Bool.eq_iff_iff, acceptableItems_iff, acceptableItems_iff, List.forall_mem_map]
    exact forall₂_congr fun v hv => by rw [(h v hv).node]
  constructor
  · rw [sorted_array]; rfl
  · rw [sorted_array]; rfl
  · rw [sorted_array]; rfl
  · intro role
    rw [sorted_array]
    -- Only two of the roles that are fit for a list look at its items.
    cases role with
    | required => exact htexts
    | items => exact hnodes
    | _ => rfl

theorem sortsAlike_object {ms : List (String × Value)} (hkeys : (Keyed.keys ms).Nodup)
    (h : ∀ e ∈ ms, SortsAlike e.2) : SortsAlike (.object ms) := by
  have hmembers : acceptableMembers (Keyed.overlay [] (ms.map fun e => (e.1, e.2.sorted)))
      = acceptableMembers ms := by
    rw [Bool.eq_iff_iff, acceptableMembers_iff, acceptableMembers_iff, forall_mem_sorted_iff hkeys]
    exact forall₂_congr fun e he => by rw [(h e he).role]
  have hentries : acceptableEntries (Keyed.overlay [] (ms.map fun e => (e.1, e.2.sorted)))
      = acceptableEntries ms := by
    rw [Bool.eq_iff_iff, acceptableEntries_iff, acceptableEntries_iff, forall_mem_sorted_iff hkeys]
    exact forall₂_congr fun e he => by rw [(h e he).entry]
  constructor
  · rw [sorted_object]; rfl
  · rw [sorted_object]; exact hmembers
  · rw [sorted_object]; exact hmembers
  · intro role
    rw [sorted_object]
    cases role with
    | properties => exact hentries
    | items | additional => exact hmembers
    | _ => rfl

/-- **Whether a value is acceptable does not depend on the order of members.** -/
theorem sortsAlike (h : v.DistinctKeys) : SortsAlike v := by
  induction h with
  | null => exact sortsAlike_of_sorted_eq Value.Canonical.null.sorted_eq
  | bool b => exact sortsAlike_of_sorted_eq (Value.Canonical.bool b).sorted_eq
  | number n => exact sortsAlike_of_sorted_eq (by rw [Value.sorted.eq_def])
  | string s => exact sortsAlike_of_sorted_eq (Value.Canonical.string s).sorted_eq
  | array _ ih => exact sortsAlike_array ih
  | object hkeys _ ih => exact sortsAlike_object hkeys ih

/-! ### Nodes in order -/

/-- What is read as a node is read from the sorted value, and nests no deeper than allowed. -/
theorem ofTree_sorted (hv : v.tree.Proper) (h : ofTree depth v.tree = .ok n) :
    v.nesting ≤ depth ∧ ofTree depth v.sorted.tree = .ok n := by
  obtain ⟨w, hw, hread⟩ := (Tree.rereads hv).node depth h
  have hnesting := nesting_of_value_tree hw
  obtain rfl := Except.ok.inj ((value_tree hnesting).symm.trans hw)
  exact ⟨hnesting, hread⟩

/-- **A node depends on the members of its value, and not on their order.** -/
theorem ofTree_of_sorted_eq (hv : v.tree.Proper) (hv' : v'.tree.Proper) (hkeys : v'.DistinctKeys)
    (heq : v.sorted = v'.sorted) (h : ofTree depth v.tree = .ok n) :
    ofTree depth v'.tree = .ok n := by
  obtain ⟨hnesting, hread⟩ := ofTree_sorted hv h
  have hsorted := Tree.nesting_of_value (value_tree hnesting)
  rw [heq] at hread hsorted
  -- The sorted value is acceptable, so the other one is acceptable too.
  have haccepts : acceptable v'.sorted = true :=
    ((agreement (distinctKeys_sorted v')).node hsorted).ok_iff.mp ⟨n, hread⟩
  rw [(sortsAlike hkeys).node] at haccepts
  have hdepth := (nesting_le_sorted hkeys).trans hsorted
  obtain ⟨n', hn'⟩ := ((agreement hkeys).node hdepth).ok_iff.mpr haccepts
  -- Both nodes are read from the one sorted value.
  have hread' := (ofTree_sorted hv' hn').2
  rw [hn', ← hread', hread]

end CompositeCrd.Schema
