import CompositeCrd.Proofs.Json.Value

/-!
# What comes back from the text of a value

The text of a value has the value's keys, texts and integers, and reading gives these again. Only
a number with a fraction or an exponent may come back as another number (`Number.echo`). So what
comes back from the text of `v` is `v.echo`: the value `v`, with what comes back in the place of
each number.

* `Value.echo` keeps everything that does not depend on numbers: nesting (`nesting_echo`), the
  order of keys (`sorted_echo`, `Value.Canonical.echo`) and which values are `null`.
* `Value.Stable v` says that all numbers of `v` come back as themselves, and so does `v` then.
  Values without floats are stable, and so are those whose floats are short decimals
  (`Number.echo_of_short`).
-/

namespace CompositeCrd.Json

mutual

/-- **What reading gives for the text of a value**: the value, with what comes back in the place
of each of its numbers. -/
def Value.echo : Value → Value
  | .null => .null
  | .bool b => .bool b
  | .number n => .number n.echo
  | .string s => .string s
  | .array items => .array (echoItems items)
  | .object members => .object (echoMembers members)

/-- What reading gives for each item. -/
def echoItems : List Value → List Value
  | [] => []
  | v :: items => v.echo :: echoItems items

/-- What reading gives for the value of each member. -/
def echoMembers : List (String × Value) → List (String × Value)
  | [] => []
  | (k, v) :: members => (k, v.echo) :: echoMembers members

end

/-- A value that comes back from its text. -/
def Value.Stable (v : Value) : Prop :=
  v.echo = v

variable {v : Value} {items : List Value} {members : List (String × Value)}

/-! ### The parts of an echo -/

/-- Items are echoed one by one. -/
theorem echoItems_eq (items : List Value) : echoItems items = items.map Value.echo := by
  induction items with
  | nil => rfl
  | cons v items ih => rw [echoItems, ih, List.map_cons]

/-- Members are echoed under their keys. -/
theorem echoMembers_eq (members : List (String × Value)) :
    echoMembers members = members.map fun e => (e.1, e.2.echo) := by
  induction members with
  | nil => rfl
  | cons e members ih => rw [echoMembers, ih, List.map_cons]

namespace Value

@[simp] theorem echo_null : null.echo = null := by
  rw [echo]

@[simp] theorem echo_bool (b : Bool) : (bool b).echo = bool b := by
  rw [echo]

@[simp] theorem echo_number (n : Number) : (number n).echo = number n.echo := by
  rw [echo]

@[simp] theorem echo_string (s : String) : (string s).echo = string s := by
  rw [echo]

@[simp] theorem echo_array (items : List Value) :
    (array items).echo = array (items.map echo) := by
  rw [echo, echoItems_eq]

@[simp] theorem echo_object (members : List (String × Value)) :
    (object members).echo = object (members.map fun e => (e.1, e.2.echo)) := by
  rw [echo, echoMembers_eq]

@[simp] theorem echo_eq_null_iff : v.echo = null ↔ v = null := by
  cases v <;> simp

/-! ### What an echo keeps -/

/-- The echo of a value nests as deep as the value. -/
@[simp] theorem nesting_echo (v : Value) : v.echo.nesting = v.nesting := by
  induction v using Value.induction with
  | null | bool _ | number _ | string _ => simp [nesting]
  | array items ih =>
    -- Both lists of items are within the same bounds.
    have hitems : nestingItems (items.map echo) = nestingItems items := by
      refine eq_of_forall_ge_iff fun n => ?_
      rw [nestingItems_le_iff, nestingItems_le_iff, List.forall_mem_map]
      exact forall₂_congr fun v hv => by rw [ih v hv]
    rw [echo_array, nesting, nesting, hitems]
  | object members ih =>
    have hmembers : nestingMembers (members.map fun e => (e.1, e.2.echo))
        = nestingMembers members := by
      refine eq_of_forall_ge_iff fun n => ?_
      rw [nestingMembers_le_iff, nestingMembers_le_iff, List.forall_mem_map]
      exact forall₂_congr fun e he => by rw [ih e he]
    rw [echo_object, nesting, nesting, hmembers]

/-- Sorting members is one thing, and reading numbers back is another. -/
theorem sorted_echo (v : Value) : v.echo.sorted = v.sorted.echo := by
  induction v using Value.induction with
  | null | bool _ | number _ | string _ => simp [sorted]
  | array items ih =>
    rw [echo_array, sorted_array, sorted_array, echo_array, List.map_map, List.map_map]
    exact congrArg array (List.map_congr_left ih)
  | object members ih =>
    rw [echo_object, sorted_object, sorted_object, echo_object, Keyed.map_overlay, List.map_map,
      List.map_map]
    refine congrArg object (congrArg (Keyed.overlay []) (List.map_congr_left fun e he => ?_))
    exact congrArg (Prod.mk e.1) (ih e he)

/-- The echo of a proper value is proper. -/
theorem Proper.echo (h : v.Proper) : v.echo.Proper := by
  induction h with
  | null => simp
  | bool b => simp
  | number h => simpa using h.echo
  | string s => simp
  | array _ ih => simpa using ih
  | object _ ih =>
    rw [echo_object, proper_object]
    exact List.forall_mem_map.mpr ih

/-- The echo of a canonical value is canonical. -/
theorem Canonical.echo (h : v.Canonical) : v.echo.Canonical := by
  induction h with
  | null => exact echo_null ▸ .null
  | bool b => exact echo_bool b ▸ .bool b
  | @number n h => exact echo_number n ▸ .number h.echo
  | string s => exact echo_string s ▸ .string s
  | array _ ih =>
    rw [echo_array]
    exact .array (List.forall_mem_map.mpr ih)
  | @object members hsorted _ ih =>
    rw [echo_object]
    exact .object ((Keyed.sorted_map_iff _).mpr hsorted) (List.forall_mem_map.mpr ih)

/-! ### Stable values -/

@[simp] theorem stable_null : null.Stable :=
  echo_null

@[simp] theorem stable_bool (b : Bool) : (bool b).Stable :=
  echo_bool b

@[simp] theorem stable_string (s : String) : (string s).Stable :=
  echo_string s

@[simp] theorem stable_number {n : Number} : (number n).Stable ↔ n.echo = n := by
  simp [Stable]

/-- A list comes back when its items do. -/
@[simp] theorem stable_array : (array items).Stable ↔ ∀ v ∈ items, v.Stable := by
  have hitems := List.map_inj_left (l := items) (f := echo) (g := id)
  rwa [List.map_id, ← array.injEq, ← echo_array] at hitems

/-- An object comes back when the values of its members do. -/
@[simp] theorem stable_object : (object members).Stable ↔ ∀ e ∈ members, e.2.Stable := by
  have hmembers := List.map_inj_left (l := members) (f := fun e => (e.1, e.2.echo)) (g := id)
  rw [List.map_id, ← object.injEq, ← echo_object] at hmembers
  refine hmembers.trans (forall₂_congr fun e _ => ?_)
  exact Prod.ext_iff.trans (and_iff_right rfl)

end Value

end CompositeCrd.Json
