import CompositeCrd.Proofs.Yaml.Node
import CompositeCrd.Yaml.Dynamic

/-!
# The values of a JSON document

The value of a node that mirrors a tree is what the tree looks like in YAML (`Tree.Seen`): nulls
are nothing, and texts are texts. There is a value if no object repeats a member, and not too
many are inside each other (`Tree.orderly`).

A member is found under its key on both sides (`Tree.Seen.get?`).
-/

namespace CompositeCrd

open Yaml (Node Folded Yields isReadable passable)

namespace Json

mutual

/-- The value is what the tree looks like. A number may look like anything. -/
def Tree.Seen : Tree → Yaml.Dynamic → Prop
  | .null, v => v = .plain .null
  | .bool b, v => v = .plain (.bool b)
  | .number _, _ => True
  | .string s, v => ∃ t text, s = some (String.ofList t) ∧ Folded t text
      ∧ v = .text (String.ofList text)
  | .array items, v => ∃ vs, v = .list vs ∧ items.Seen vs
  | .object members, v => ∃ es, v = .mapping es ∧ members.Seen es
  | .broken _ _, _ => False

/-- The values are what the items look like. -/
def Items.Seen : Items → List Yaml.Dynamic → Prop
  | .closed, vs => vs = []
  | .broken _, _ => False
  | .item t rest, vs => ∃ v vs', vs = v :: vs' ∧ t.Seen v ∧ rest.Seen vs'

/-- The entries are what the members look like. -/
def Members.Seen : Members → List (Yaml.Dynamic × Yaml.Dynamic) → Prop
  | .closed, es => es = []
  | .broken _, _ => False
  | .noKey _, _ => False
  | .badKey _ _, _ => False
  | .member key t rest, es => ∃ k text v es', es = (.text (String.ofList text), v) :: es'
      ∧ key = some (String.ofList k) ∧ Folded k text ∧ t.Seen v ∧ rest.Seen es'

end

end Json

/-! ### Trees that YAML admits -/

namespace Json

/-- The keys of members, as far as they make sense. -/
def Members.keys : Members → List String
  | .member (some k) _ rest => k :: rest.keys
  | .member none _ rest => rest.keys
  | _ => []

mutual

/-- Whether at most so many lists and objects are inside each other, and no object repeats a
member. -/
def Tree.orderly : Tree → (depth : Nat) → Bool
  | .array items, depth + 1 => items.orderly depth
  | .object members, depth + 1 => members.keys.Nodup && members.orderly depth
  | .array _, 0 => false
  | .object _, 0 => false
  | _, _ => true

/-- Whether the items of a list are like this. -/
def Items.orderly : Items → (depth : Nat) → Bool
  | .item t rest, depth => t.orderly depth && rest.orderly depth
  | _, _ => true

/-- Whether the members of an object are like this. -/
def Members.orderly : Members → (depth : Nat) → Bool
  | .member _ t rest, depth => t.orderly depth && rest.orderly depth
  | _, _ => true

end

end Json

namespace Yaml.Dynamic

open Json (Tree Items Members)

variable {α β : Type} {anchors : List (Nat × Node)} {depth left : Nat} {ignoreTag : Bool}
  {n : Node} {v : Dynamic} {sure : Prop}

/-! ### One node -/

theorem bind_steps (x : Steps α) (f : α → Steps β) (left : Nat) :
    (x >>= f) left = (x left).bind fun p => f p.1 p.2 :=
  rfl

/-- A scalar without tag and anchor: its text if it is quoted, else what it resolves to. -/
theorem ofNode_scalar {style : ScalarStyle} {text : List Char} :
    ofNode anchors depth ignoreTag (.scalar none none style text)
      = ofOption (ofScalar? text (if style = .plain then resolve text else .text)) := by
  refine Eq.trans ?_ (bind_pure _)
  delta ofNode
  cases depth <;> cases ignoreTag <;> rfl

/-- What may fail without a step. -/
theorem yields_ofOption {o : Option α} {P : α → Prop} (h : Yields sure o P) :
    Yields sure (ofOption o left) fun x => P x.1 := by
  cases o with
  | none => exact .none fun hsure => absurd (h.total hsure) (by simp)
  | some a => exact .some (h.sound a rfl)

/-- A quoted scalar is a text. -/
theorem ofNode_text {text : List Char} :
    ofNode anchors depth ignoreTag (.scalar none none .other text) left
      = some (.text (String.ofList text), left) := by
  rw [ofNode_scalar]
  rfl

/-- A word that is neither a text nor an integer. -/
theorem ofNode_plain {text : List Char} {r : Resolved} (hr : resolve text = r)
    (hint : ∀ n, r ≠ .int n) (htext : r ≠ .text) :
    ofNode anchors depth ignoreTag (.scalar none none .plain text) left
      = some (.plain r, left) := by
  rw [ofNode_scalar, if_pos rfl, hr]
  cases r with
  | text => exact absurd rfl htext
  | int n => exact absurd rfl (hint n)
  | _ => rfl

/-- A list is read item by item, one level further in. -/
theorem ofNode_list {ns : List Node} :
    ofNode anchors (depth + 1) ignoreTag (.list none none ns)
      = ns.mapM (ofNode anchors depth false) >>= fun vs => pure (.list vs) := by
  delta ofNode
  cases ignoreTag <;> rfl

/-- A mapping is read entry by entry, and its keys have to be distinct. -/
theorem ofNode_mapping {es : List (Node × Node)} :
    ofNode anchors (depth + 1) ignoreTag (.mapping none none es)
      = es.mapM (fun e => ofNode anchors depth ignoreTag e.1 >>= fun k =>
          ofNode anchors depth false e.2 >>= fun v => pure (k, v))
        >>= fun es => ofOption (mappingOf? es) >>= fun v => pure v := by
  delta ofNode
  cases ignoreTag <;> rfl

/-- Where the limit on nesting is spent, no list is read. -/
theorem ofNode_list_zero {ns : List Node} :
    ofNode anchors 0 ignoreTag (.list none none ns) left = none := by
  delta ofNode
  rfl

/-- Neither is a mapping. -/
theorem ofNode_mapping_zero {es : List (Node × Node)} :
    ofNode anchors 0 ignoreTag (.mapping none none es) left = none := by
  delta ofNode
  rfl

/-- Texts that are distinct make distinct keys. -/
theorem distinct_of_nodup {vs : List (Dynamic × Dynamic)} {keys : List String}
    (hkeys : vs.map (·.1) = keys.map Dynamic.text) (hnodup : keys.Nodup) :
    mappingOf?.distinct vs = true := by
  induction vs generalizing keys with
  | nil => rfl
  | cons e vs ih =>
    obtain ⟨k, keys, rfl, hk, hrest⟩ := List.map_eq_cons_iff.mp hkeys.symm
    have hk : Dynamic.text k = e.1 := hk
    obtain ⟨hmem, hnodup⟩ := List.nodup_cons.mp hnodup
    -- The first key is not among the others, since its text is not.
    have hnone : vs.any (fun e' => e.1.same e'.1) = false := by
      rw [List.any_eq_false]
      intro e' he'
      have hmem' : e'.1 ∈ keys.map Dynamic.text := hrest ▸ List.mem_map_of_mem he'
      obtain ⟨k', hk', heq⟩ := List.mem_map.mp hmem'
      rw [← hk, ← heq, same, beq_iff_eq]
      rintro rfl
      exact hmem hk'
    rw [mappingOf?.distinct, hnone, ih hrest.symm hnodup]
    rfl

/-! ### All nodes of a tree -/

/-- The values are what the members look like, and their keys are the same in a document that
surely passes. -/
structure Members.SeenAs (sure : Prop) (ms : Members) (vs : List (Dynamic × Dynamic)) : Prop where
  seen : ms.Seen vs
  keys : sure → vs.map (·.1) = ms.keys.map Dynamic.text

mutual

/-- The value of a node that mirrors a tree is what the tree looks like. There is a value if the
document surely passes and is orderly. -/
theorem ofNode_seen : (tree : Tree) → ∀ {n : Node} {depth left : Nat} {ignoreTag : Bool},
    tree.Mirrors isReadable sure n → (sure → tree.orderly depth = true) →
    Yields sure (ofNode anchors depth ignoreTag n left) fun x => tree.Seen x.1
  | .null, n, depth, left, ignoreTag, hn, _ => by
    obtain rfl := hn
    rw [ofNode_plain (r := .null) (by decide) nofun nofun]
    exact .some rfl
  | .bool true, n, depth, left, ignoreTag, hn, _ => by
    obtain rfl := hn
    rw [ofNode_plain (r := .bool true) (by decide) nofun nofun]
    exact .some rfl
  | .bool false, n, depth, left, ignoreTag, hn, _ => by
    obtain rfl := hn
    rw [ofNode_plain (r := .bool false) (by decide) nofun nofun]
    exact .some rfl
  -- A numeral may be one that is not read; a sure reading has only those that are.
  | .number m, n, depth, left, ignoreTag, hn, _ => by
    obtain ⟨ds, -, hreadable, rfl⟩ := hn
    rw [ofNode_scalar, if_pos rfl]
    refine yields_ofOption ⟨fun _ _ => trivial, fun hsure => ?_⟩
    exact Option.isSome_iff_exists.mp (hreadable hsure)
  -- A text that has been folded is seen as folded.
  | .string s, n, depth, left, ignoreTag, hn, _ => by
    obtain ⟨t, text, ht, hread, rfl⟩ := hn
    rw [ofNode_text]
    exact .some ⟨t, text, ht, hread.folded, rfl⟩
  -- The limit on nesting is spent: an orderly tree has no list here.
  | .array is, n, 0, left, ignoreTag, hn, horderly => by
    obtain ⟨ns, rfl, -⟩ := hn
    rw [ofNode_list_zero]
    exact .none fun hsure => absurd (horderly hsure) (by simp [Tree.orderly])
  | .array is, n, depth + 1, left, ignoreTag, hn, horderly => by
    obtain ⟨ns, rfl, hns⟩ := hn
    rw [ofNode_list, bind_steps]
    -- The items are nested one level less deep.
    refine (mapM_items_seen is hns horderly).bind ?_
    rintro ⟨vs, left'⟩ hvs
    exact .some ⟨vs, rfl, hvs⟩
  | .object ms, n, 0, left, ignoreTag, hn, horderly => by
    obtain ⟨es, rfl, -⟩ := hn
    rw [ofNode_mapping_zero]
    exact .none fun hsure => absurd (horderly hsure) (by simp [Tree.orderly])
  | .object ms, n, depth + 1, left, ignoreTag, hn, horderly => by
    obtain ⟨es, rfl, hes⟩ := hn
    have horderly' (hsure : sure) : ms.keys.Nodup ∧ ms.orderly depth = true := by
      have h := horderly hsure
      rwa [Tree.orderly, Bool.and_eq_true, decide_eq_true_eq] at h
    rw [ofNode_mapping, bind_steps]
    refine (mapM_members_seen ms hes fun hsure => (horderly' hsure).2).bind ?_
    rintro ⟨vs, left'⟩ ⟨hseen, hkeys⟩
    -- A mapping refuses a key given twice; the keys of an orderly object are distinct.
    have hmapping : Yields sure (mappingOf? vs) (Tree.object ms).Seen := by
      unfold mappingOf?
      split
      · exact .some ⟨vs, rfl, hseen⟩
      · next hnot =>
        exact .none fun hsure => hnot (distinct_of_nodup (hkeys hsure) (horderly' hsure).1)
    refine (yields_ofOption hmapping).bind ?_
    rintro ⟨v, left''⟩ hv
    exact .some hv
  | .broken f g, n, depth, left, ignoreTag, hn, _ => hn.elim

/-- The same for the items of a list. -/
theorem mapM_items_seen : (is : Items) → ∀ {ns : List Node} {depth left : Nat},
    is.Mirrors isReadable sure ns → (sure → is.orderly depth = true) →
    Yields sure (ns.mapM (ofNode anchors depth false) left) fun x => is.Seen x.1
  | .closed, ns, depth, left, hns, _ => by
    obtain rfl := hns
    rw [List.mapM_nil]
    exact .some rfl
  | .broken f, ns, depth, left, hns, _ => hns.elim
  | .item t rest, ns, depth, left, hns, horderly => by
    obtain ⟨n, ns', rfl, hn, hns'⟩ := hns
    have horderly' (hsure : sure) : t.orderly depth = true ∧ rest.orderly depth = true := by
      have h := horderly hsure
      rwa [Items.orderly, Bool.and_eq_true] at h
    rw [List.mapM_cons, bind_steps]
    refine (ofNode_seen t hn fun hsure => (horderly' hsure).1).bind ?_
    rintro ⟨v, left₁⟩ hv
    refine (mapM_items_seen rest hns' fun hsure => (horderly' hsure).2).bind ?_
    rintro ⟨vs, left₂⟩ hvs
    exact .some ⟨v, vs, rfl, hv, hvs⟩

/-- The same for the members of an object. -/
theorem mapM_members_seen : (ms : Members) → ∀ {es : List (Node × Node)} {depth left : Nat}
    {ignoreTag : Bool}, ms.Mirrors isReadable sure es → (sure → ms.orderly depth = true) →
    Yields sure (es.mapM (fun e => ofNode anchors depth ignoreTag e.1 >>= fun k =>
      ofNode anchors depth false e.2 >>= fun v => pure (k, v)) left)
      fun x => Members.SeenAs sure ms x.1
  | .closed, es, depth, left, ignoreTag, hes, _ => by
    obtain rfl := hes
    rw [List.mapM_nil]
    exact .some ⟨rfl, fun _ => rfl⟩
  | .broken f, es, depth, left, ignoreTag, hes, _ => hes.elim
  | .noKey t, es, depth, left, ignoreTag, hes, _ => hes.elim
  | .badKey f g, es, depth, left, ignoreTag, hes, _ => hes.elim
  | .member key t rest, es, depth, left, ignoreTag, hes, horderly => by
    obtain ⟨k, text, n, es', rfl, rfl, hread, hn, hes'⟩ := hes
    have horderly' (hsure : sure) : t.orderly depth = true ∧ rest.orderly depth = true := by
      have h := horderly hsure
      rwa [Members.orderly, Bool.and_eq_true] at h
    -- The key is a text, the value is read by induction.
    have hentry : Yields sure ((ofNode anchors depth ignoreTag (.scalar none none .other text)
        >>= fun k => ofNode anchors depth false n >>= fun v => pure (k, v)) left)
        fun x => x.1.1 = .text (String.ofList text) ∧ t.Seen x.1.2 := by
      rw [bind_steps, ofNode_text]
      refine (ofNode_seen t hn fun hsure => (horderly' hsure).1).bind ?_
      rintro ⟨v, left'⟩ hv
      exact .some ⟨rfl, hv⟩
    rw [List.mapM_cons, bind_steps]
    refine hentry.bind ?_
    rintro ⟨⟨_, v⟩, left₁⟩ ⟨rfl, hv⟩
    refine (mapM_members_seen rest hes' fun hsure => (horderly' hsure).2).bind ?_
    rintro ⟨vs, left₂⟩ ⟨hvs, hkeys⟩
    refine .some ⟨⟨k, text, v, vs, rfl, rfl, hread.folded, hv, hvs⟩, fun hsure => ?_⟩
    rw [List.map_cons, hkeys hsure, hread.same hsure]
    rfl

end

/-- **A JSON object is seen as what it is**, if YAML reads it at all, which it does if the
document passes and is orderly. -/
theorem ofText?_written {ms : Members} {text : String} {cs' : List Char}
    (hwritten : (Tree.object ms).Written text.toList cs') (hend : Json.dropSpace cs' = [])
    (hpassable : sure → passable isReadable text.toList = true)
    (horderly : sure → (Tree.object ms).orderly maxDepth = true) :
    Yields sure (ofText? text) (Tree.object ms).Seen := by
  refine (Node.ofText?_written (t := .object ms) trivial hwritten hend hpassable).bind ?_
  intro root hmirrors
  have hread : Yields sure (ofNode root.anchored.reverse maxDepth false root (aliasLimit root))
      fun x => (Tree.object ms).Seen x.1 := ofNode_seen _ hmirrors horderly
  change Yields sure (Option.map Prod.fst (ofNode root.anchored.reverse maxDepth false root
    (aliasLimit root))) _
  rw [Option.map_eq_bind]
  refine hread.bind ?_
  rintro ⟨v, left⟩ hv
  exact .some hv

end Yaml.Dynamic

/-- Whether YAML surely reads a JSON document: it minds no character of it, no object repeats a
member, and there are not too many lists and objects inside each other. -/
def Yaml.admits (text : String) : Bool :=
  passable isReadable text.toList && (Json.Document.ofText text).root.orderly maxDepth

/-! ### Members by their keys -/

namespace Json

open Yaml (spaceless)

/-- The value of the first member with a key. -/
def Members.find? (key : String) : Members → Option Tree
  | .member k t rest => if k = some key then some t else rest.find? key
  | _ => none

variable {ms : Members} {v : Yaml.Dynamic} {es : List (Yaml.Dynamic × Yaml.Dynamic)} {key : String}

/-- A key without spaces is the same on both sides. -/
theorem key_eq_iff {k text : List Char} (h : Folded k text)
    (hkey : spaceless key.toList = true) :
    String.ofList k = key ↔ String.ofList text = key := by
  obtain ⟨name, rfl⟩ : ∃ name, key = String.ofList name := ⟨key.toList, String.ofList_toList.symm⟩
  rw [String.toList_ofList] at hkey
  rw [String.ofList_inj, String.ofList_inj]
  exact h.eq_iff hkey

/-- A key without white space is found in the mapping as in the object. -/
theorem Members.Seen.find? (hkey : spaceless key.toList = true) :
    ∀ {ms : Members} {es : List (Yaml.Dynamic × Yaml.Dynamic)}, ms.Seen es →
      Option.Rel Tree.Seen (ms.find? key)
        ((es.find? fun e => e.1.same (.text key)).map (·.2))
  | .closed, es, h => by
    obtain rfl := h
    exact .none
  | .broken _, es, h => h.elim
  | .noKey _, es, h => h.elim
  | .badKey _ _, es, h => h.elim
  | .member k t rest, es, h => by
    obtain ⟨k, text, v, es, rfl, rfl, hfolded, ht, hrest⟩ := h
    have hsame : (Yaml.Dynamic.text (String.ofList text)).same (.text key)
        = decide (String.ofList k = key) := by
      rw [decide_eq_decide.mpr (key_eq_iff hfolded hkey), Yaml.Dynamic.same]
      rfl
    rw [Members.find?, List.find?_cons, hsame]
    -- The first key with the name decides, in both.
    by_cases heq : String.ofList k = key
    · rw [if_pos (congrArg some heq), decide_eq_true heq]
      exact .some ht
    · rw [if_neg (fun h => heq (Option.some.inj h)), decide_eq_false heq]
      exact hrest.find? hkey

/-- **A member is found under its key on both sides.** -/
theorem Tree.Seen.get? (h : (Tree.object ms).Seen v) (hkey : spaceless key.toList = true) :
    Option.Rel Tree.Seen (ms.find? key) (v.get? key) := by
  obtain ⟨es, rfl, hes⟩ := h
  exact hes.find? hkey

end Json

end CompositeCrd
