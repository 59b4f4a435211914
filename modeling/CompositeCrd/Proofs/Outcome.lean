import Mathlib.Data.List.Forall2

/-!
# Outcomes that may be errors

Decoding and generating are chains in `Except`. A chain has a value when each step has one
(`bind_eq_ok`, `map_eq_ok`), and a traversal of a list stops at its first element without one
(`mapM_eq_ok_iff`, `mapM_eq_error_iff`).
-/

namespace CompositeCrd

variable {ε α β : Type} {e : ε}

/-- Two steps succeed when the first does and the second does with its result. -/
theorem bind_eq_ok {x : Except ε α} {f : α → Except ε β} {b : β} :
    (x >>= f) = .ok b ↔ ∃ a, x = .ok a ∧ f a = .ok b := by
  cases x <;> simp [bind, Except.bind]

/-- They fail when the first does, or the second with the result of the first. -/
theorem bind_eq_error {x : Except ε α} {f : α → Except ε β} :
    (x >>= f) = .error e ↔ x = .error e ∨ ∃ a, x = .ok a ∧ f a = .error e := by
  cases x <;> simp [bind, Except.bind]

theorem map_eq_ok {x : Except ε α} {f : α → β} {b : β} :
    x.map f = .ok b ↔ ∃ a, x = .ok a ∧ f a = b := by
  cases x <;> simp [Except.map]

theorem toOption_eq_some {x : Except ε α} {a : α} : x.toOption = some a ↔ x = .ok a := by
  cases x <;> simp [Except.toOption]

@[simp] theorem mapError_eq_ok {ε' : Type} {x : Except ε α} {f : ε → ε'} {a : α} :
    x.mapError f = .ok a ↔ x = .ok a := by
  cases x <;> simp [Except.mapError]

theorem mapError_eq_error {ε' : Type} {x : Except ε α} {f : ε → ε'} {e : ε'} :
    x.mapError f = .error e ↔ ∃ cause, x = .error cause ∧ f cause = e := by
  cases x <;> simp [Except.mapError]

@[simp] theorem ok_bind (a : α) (f : α → Except ε β) : (Except.ok a >>= f) = f a := rfl

@[simp] theorem error_bind (e : ε) (f : α → Except ε β) :
    ((Except.error e : Except ε α) >>= f) = .error e := rfl

/-! ### Traversals -/

variable {f : α → Except ε β} {xs : List α} {ys : List β}

/-- Only what is done with the elements of a list matters. -/
theorem mapM_congr {g : α → Except ε β} (h : ∀ x ∈ xs, f x = g x) : xs.mapM f = xs.mapM g := by
  induction xs with
  | nil => rfl
  | cons x xs ih =>
    obtain ⟨hx, hxs⟩ := List.forall_mem_cons.mp h
    rw [List.mapM_cons, List.mapM_cons, hx, ih hxs]

/-- What is done to every value may be done behind the traversal. -/
theorem mapM_map_right {γ : Type} (g : β → γ) :
    (xs.mapM fun x => (f x).map g) = (xs.mapM f).map (List.map g) := by
  induction xs with
  | nil => rfl
  | cons x xs ih =>
    rw [List.mapM_cons, List.mapM_cons, ih]
    cases f x with
    | error e => rfl
    | ok y => cases xs.mapM f <;> rfl

/-- A traversal has a value when every element has one. -/
theorem mapM_eq_ok_iff : xs.mapM f = .ok ys ↔ List.Forall₂ (fun x y => f x = .ok y) xs ys := by
  -- Both sides go through the list from the front.
  induction xs generalizing ys with
  | nil =>
    rw [List.mapM_nil, List.forall₂_nil_left_iff]
    exact ⟨fun h => (Except.ok.inj h).symm, fun h => congrArg Except.ok h.symm⟩
  | cons x xs ih =>
    rw [List.mapM_cons, bind_eq_ok]
    refine ⟨?_, ?_⟩
    · rintro ⟨y, hy, h⟩
      obtain ⟨ys', hys, h⟩ := bind_eq_ok.mp h
      obtain rfl := Except.ok.inj h
      exact .cons hy (ih.mp hys)
    · intro h
      cases h with
      | cons hy hys => exact ⟨_, hy, bind_eq_ok.mpr ⟨_, ih.mpr hys, rfl⟩⟩

/-- All elements have a result, in order. -/
theorem mapM_eq_some_iff {f : α → Option β} :
    xs.mapM f = some ys ↔ List.Forall₂ (fun x y => f x = some y) xs ys := by
  induction xs generalizing ys with
  | nil =>
    rw [List.mapM_nil, List.forall₂_nil_left_iff]
    exact ⟨fun h => (Option.some.inj h).symm, fun h => congrArg some h.symm⟩
  | cons x xs ih =>
    rw [List.mapM_cons, Option.bind_eq_bind, Option.bind_eq_some_iff]
    refine ⟨?_, ?_⟩
    · -- The first element has a result, and the rest have theirs.
      rintro ⟨y, hy, h⟩
      obtain ⟨ys', hys, h⟩ := Option.bind_eq_some_iff.mp h
      obtain rfl := Option.some.inj h
      exact .cons hy (ih.mp hys)
    · intro h
      cases h with
      | cons hy hys => exact ⟨_, hy, Option.bind_eq_some_iff.mpr ⟨_, ih.mpr hys, rfl⟩⟩

/-- A traversal has a value with good elements when each element has a good value. -/
theorem exists_mapM_iff {f : α → Option β} {Q : β → Prop} :
    (∃ ys, xs.mapM f = some ys ∧ ∀ y ∈ ys, Q y) ↔ ∀ x ∈ xs, ∃ y, f x = some y ∧ Q y := by
  induction xs with
  | nil => exact iff_of_true ⟨[], rfl, by simp⟩ (by simp)
  | cons x xs ih =>
    rw [List.forall_mem_cons, ← ih]
    simp only [mapM_eq_some_iff]
    refine ⟨?_, ?_⟩
    · -- The first result is good, and so are the others.
      rintro ⟨_, h, hQ⟩
      cases h with
      | cons hy hys =>
        obtain ⟨hfirst, hrest⟩ := List.forall_mem_cons.mp hQ
        exact ⟨⟨_, hy, hfirst⟩, _, hys, hrest⟩
    · rintro ⟨⟨y, hy, hfirst⟩, ys, hys, hrest⟩
      exact ⟨y :: ys, .cons hy hys, List.forall_mem_cons.mpr ⟨hfirst, hrest⟩⟩

/-- Elements can be related one by one exactly when each of them can. -/
theorem exists_forall₂_iff {R : α → β → Prop} :
    (∃ ys, List.Forall₂ R xs ys) ↔ ∀ x ∈ xs, ∃ y, R x y := by
  induction xs with
  | nil => exact ⟨fun _ x hx => absurd hx List.not_mem_nil, fun _ => ⟨[], .nil⟩⟩
  | cons x xs ih =>
    rw [List.forall_mem_cons, ← ih]
    refine ⟨?_, ?_⟩
    · rintro ⟨_, h⟩
      cases h with
      | cons hy hys => exact ⟨⟨_, hy⟩, _, hys⟩
    · rintro ⟨⟨y, hy⟩, ys, hys⟩
      exact ⟨y :: ys, .cons hy hys⟩

/-- What is related to a list comes from one of its elements. -/
theorem exists_of_forall₂ {R : α → β → Prop} (h : List.Forall₂ R xs ys) {y : β} (hy : y ∈ ys) :
    ∃ x ∈ xs, R x y := by
  induction h with
  | nil => exact absurd hy List.not_mem_nil
  | cons hfirst _ ih =>
    rcases List.mem_cons.mp hy with rfl | hy
    · exact ⟨_, List.mem_cons_self, hfirst⟩
    · obtain ⟨x, hx, hR⟩ := ih hy
      exact ⟨x, List.mem_cons_of_mem _ hx, hR⟩

/-- Elements that are related have equal images. -/
theorem map_eq_of_forall₂ {γ : Type} {R : α → β → Prop} {g : β → γ} {g' : α → γ}
    (h : List.Forall₂ R xs ys) (hg : ∀ x ∈ xs, ∀ y, R x y → g y = g' x) :
    ys.map g = xs.map g' := by
  induction h with
  | nil => rfl
  | cons hy _ ih =>
    obtain ⟨hfirst, hrest⟩ := List.forall_mem_cons.mp hg
    rw [List.map_cons, List.map_cons, hfirst _ hy, ih hrest]

/-- Elements stay related when each of the first list may be related otherwise. -/
theorem forall₂_imp_of_mem {R S : α → β → Prop} (h : List.Forall₂ R xs ys)
    (hRS : ∀ x ∈ xs, ∀ y, R x y → S x y) : List.Forall₂ S xs ys := by
  induction h with
  | nil => exact .nil
  | cons hy _ ih =>
    obtain ⟨hfirst, hrest⟩ := List.forall_mem_cons.mp hRS
    exact .cons (hfirst _ hy) (ih hrest)

/-- Elements at the same position are related. -/
theorem forall₂_getElem? {R : α → β → Prop} (h : List.Forall₂ R xs ys) {i : Nat} {x : α} {y : β}
    (hx : xs[i]? = some x) (hy : ys[i]? = some y) : R x y := by
  induction h generalizing i with
  | nil => exact absurd hx (by simp)
  | cons hfirst _ ih =>
    -- The first elements are related, and so are those behind.
    cases i with
    | zero =>
      obtain rfl := Option.some.inj hx
      obtain rfl := Option.some.inj hy
      exact hfirst
    | succ i => exact ih hx hy

/-- What is found first in two lists is related if what to look for is the same in related
elements. -/
theorem forall₂_find? {R : α → β → Prop} {p : α → Bool} {q : β → Bool} (h : List.Forall₂ R xs ys)
    (hpq : ∀ x y, R x y → p x = q y) : Option.Rel R (xs.find? p) (ys.find? q) := by
  induction h with
  | nil => exact .none
  | @cons x y xs ys hfirst _ ih =>
    rw [List.find?_cons, List.find?_cons, hpq x y hfirst]
    cases q y with
    | true => exact .some hfirst
    | false => exact ih

/-- **A traversal fails at the first element without a value**, whatever comes behind it. -/
theorem mapM_eq_error_iff : xs.mapM f = .error e ↔
    ∃ before x behind, xs = before ++ x :: behind ∧ (∀ x' ∈ before, ∃ y, f x' = .ok y)
      ∧ f x = .error e := by
  induction xs with
  | nil =>
    refine ⟨?_, ?_⟩
    · intro h
      exact absurd h (by simp [pure, Except.pure])
    · rintro ⟨before, x, behind, h, -⟩
      exact absurd h (by simp)
  | cons x xs ih =>
    rw [List.mapM_cons, bind_eq_error]
    -- The first element fails, or it has a value and the failure is behind it.
    refine ⟨?_, ?_⟩
    · rintro (h | ⟨y, hy, h⟩)
      · exact ⟨[], x, xs, rfl, by simp, h⟩
      · rcases bind_eq_error.mp h with h | ⟨ys, -, h⟩
        · obtain ⟨before, x', behind, rfl, hbefore, hx'⟩ := ih.mp h
          refine ⟨x :: before, x', behind, rfl, ?_, hx'⟩
          exact List.forall_mem_cons.mpr ⟨⟨y, hy⟩, hbefore⟩
        · exact absurd h (by simp [pure, Except.pure])
    · -- The failing element is the first one, or it fails in the rest.
      rintro ⟨before, x', behind, h, hbefore, hx'⟩
      cases before with
      | nil =>
        obtain ⟨rfl, -⟩ := List.cons.inj h
        exact .inl hx'
      | cons x'' before =>
        obtain ⟨rfl, rfl⟩ := List.cons.inj h
        obtain ⟨⟨y, hy⟩, hbefore⟩ := List.forall_mem_cons.mp hbefore
        refine .inr ⟨y, hy, bind_eq_error.mpr (.inl (ih.mpr ?_))⟩
        exact ⟨before, x', behind, rfl, hbefore, hx'⟩

/-- The same by position: the element that fails is the first that does. -/
theorem mapM_eq_error_iff_getElem? : xs.mapM f = .error e ↔
    ∃ (i : Nat) (x : α), xs[i]? = some x ∧ f x = .error e
      ∧ ∀ j < i, ∀ x', xs[j]? = some x' → ∃ y, f x' = .ok y := by
  rw [mapM_eq_error_iff]
  refine ⟨?_, ?_⟩
  · rintro ⟨before, x, behind, rfl, hbefore, hx⟩
    -- The failing element stands behind all of `before`.
    refine ⟨before.length, x, by simp, hx, fun j hj x' hx' => hbefore x' ?_⟩
    rw [List.getElem?_append_left hj] at hx'
    exact List.mem_of_getElem? hx'
  · rintro ⟨i, x, hi, hx, hbefore⟩
    obtain ⟨hlt, rfl⟩ := List.getElem?_eq_some_iff.mp hi
    -- What stands before it are the elements at lesser positions.
    refine ⟨xs.take i, xs[i], xs.drop (i + 1), ?_, fun x' hx' => ?_, hx⟩
    · rw [← List.drop_eq_getElem_cons hlt, List.take_append_drop]
    · obtain ⟨j, hj⟩ := List.mem_iff_getElem?.mp hx'
      rw [List.getElem?_take] at hj
      split at hj
      · next hji => exact hbefore j hji x' hj
      · exact absurd hj (by simp)

end CompositeCrd
