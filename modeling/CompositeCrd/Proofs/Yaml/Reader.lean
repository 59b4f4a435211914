import CompositeCrd.DocumentFormat
import CompositeCrd.Proofs.Json.Whole
import CompositeCrd.Proofs.Yaml.Node
import CompositeCrd.Proofs.Yaml.Numeral

/-!
# JSON documents through the readers of YAML

What JSON decodes from a tree with a `Codec`, a `Reader` takes from a node. The two are alike
(`Codec.ReadAlike`) if the reader gives for every node that mirrors a tree what the codec gives
for the tree. The reader may enter more lists and mappings than the codec, and neither minds
repeated keys in an embedded schema or in a table, where the last counts.

There is one lemma for each kind of codec, and a record is read alike if its fields are. An
opposite is not to be had: a reader takes many nodes that mirror no tree, or a tree of another
shape.
-/

namespace CompositeCrd

open Json (Decoded Items Members Number Tree Value)
open Yaml (Node Reader Resolved Steps Yields isFaithful)

variable {α β σ : Type} {anchors : List (Nat × Node)} {depth depth' : Nat}

/-- Where a codec enters a list or an object, a reader can do so. -/
theorem exists_of_succ_le (h : depth + 1 ≤ depth') : ∃ d, depth' = d + 1 ∧ depth ≤ d :=
  ⟨depth' - 1, by omega, by omega⟩

/-! ### Embedded values -/

namespace Yaml

/-- A scalar without a tag is read as a text, whatever it looks like. -/
theorem readText_scalar {style : ScalarStyle} {text : List Char} :
    readText anchors (.scalar none none style text) = pure (String.ofList text) :=
  rfl

/-- Only a plain scalar is resolved, any other is a text. -/
theorem jsonValue_scalar {style : ScalarStyle} {text : List Char} :
    jsonValue anchors depth (.scalar none none style text)
      = ofOption ((if style = .plain then resolve text else .text).jsonValue? text) := by
  delta jsonValue
  cases depth <;> rfl

/-- The value of a list is that of its items, one level deeper. -/
theorem jsonValue_list {ns : List Node} :
    jsonValue anchors (depth + 1) (.list none none ns)
      = ns.mapM (jsonValue anchors depth) >>= fun vs => pure (.array vs) := by
  delta jsonValue
  rfl

/-- The value of a mapping is that of its entries, one level deeper, the last counting for each
key. -/
theorem jsonValue_mapping {es : List (Node × Node)} :
    jsonValue anchors (depth + 1) (.mapping none none es)
      = es.mapM (fun e => readText anchors e.1 >>= fun key =>
          jsonValue anchors depth e.2 >>= fun v => pure (key, v))
        >>= fun ms => pure (.object (Keyed.ofList ms)) := by
  delta jsonValue
  rfl

/-- A word that is no text. -/
theorem jsonValue_plain {text : List Char} {r : Resolved} {v : Value} (hr : resolve text = r)
    (h : r.jsonValue? text = some v) :
    jsonValue anchors depth (.scalar none none .plain text) = pure v := by
  rw [jsonValue_scalar, if_pos rfl, hr, h]
  rfl

mutual

/-- The value of a node that mirrors a tree is the value of the tree. -/
theorem jsonValue_mirrors : (t : Tree) → ∀ {depth depth' : Nat} {v : Value} {n : Node},
    t.Mirrors isFaithful True n → t.value depth = .ok v → depth ≤ depth' →
    jsonValue anchors depth' n = pure v
  | .null, depth, depth', v, n, hn, hv, _ => by
    obtain rfl := hn
    obtain rfl := Except.ok.inj hv
    exact jsonValue_plain (r := .null) (by decide) rfl
  | .bool b, depth, depth', v, n, hn, hv, _ => by
    obtain rfl := Except.ok.inj hv
    cases b <;> obtain rfl := hn <;> exact jsonValue_plain (r := .bool _) (by decide) rfl
  | .number none, depth, depth', v, n, _, hv, _ => absurd hv (by simp [Tree.value])
  -- Here the numeral has to mean the same in both notations.
  | .number (some m), depth, depth', v, n, hn, hv, _ => by
    obtain ⟨ds, ⟨numeral, hds, hm⟩, hfaithful, rfl⟩ := hn
    obtain rfl := Except.ok.inj hv
    exact jsonValue_plain rfl (jsonValue?_resolve hds hm.symm (hfaithful trivial))
  | .string none, depth, depth', v, n, _, hv, _ => absurd hv (by simp [Tree.value])
  | .string (some s), depth, depth', v, n, hn, hv, _ => by
    obtain ⟨t, text, hs, hread, rfl⟩ := hn
    obtain rfl := Except.ok.inj hv
    obtain rfl := hread.same trivial
    rw [jsonValue_scalar, Option.some.inj hs]
    rfl
  -- Going into a list takes a level on both sides.
  | .array items, depth, depth', v, n, hn, hv, hdepth => by
    obtain ⟨ns, rfl, hns⟩ := hn
    obtain ⟨depth, vs, rfl, rfl, hvs⟩ := Tree.value_array_eq_ok_iff.mp hv
    obtain ⟨depth', rfl, hle⟩ := exists_of_succ_le hdepth
    rw [jsonValue_list, mapM_jsonValue_mirrors items hns hvs hle, pure_bind]
  | .object members, depth, depth', v, n, hn, hv, hdepth => by
    obtain ⟨es, rfl, hes⟩ := hn
    obtain ⟨depth, m, rfl, rfl, hm⟩ := Tree.value_object_eq_ok_iff.mp hv
    obtain ⟨depth', rfl, hle⟩ := exists_of_succ_le hdepth
    obtain ⟨ms, hms, rfl⟩ := mapM_entries_mirrors members hes hm hle
    rw [jsonValue_mapping, hms, pure_bind]
    rfl
  | .broken _ _, depth, depth', v, n, hn, _, _ => hn.elim

/-- The same for the items of a list. -/
theorem mapM_jsonValue_mirrors : (is : Items) → ∀ {depth depth' : Nat} {vs : List Value}
    {ns : List Node}, is.Mirrors isFaithful True ns → is.values depth = .ok vs → depth ≤ depth' →
    ns.mapM (jsonValue anchors depth') = pure vs
  | .closed, depth, depth', vs, ns, hns, hvs, _ => by
    obtain rfl := hns
    obtain rfl := Except.ok.inj hvs
    rw [List.mapM_nil]
  | .broken _, depth, depth', vs, ns, hns, _, _ => hns.elim
  | .item t rest, depth, depth', vs, ns, hns, hvs, hdepth => by
    -- The first item, then the others.
    obtain ⟨n, ns', rfl, hn, hns'⟩ := hns
    obtain ⟨v, vs, rfl, hv, hvs'⟩ := Items.values_item_eq_ok_iff.mp hvs
    rw [List.mapM_cons, jsonValue_mirrors t hn hv hdepth, pure_bind,
      mapM_jsonValue_mirrors rest hns' hvs' hdepth, pure_bind]

/-- The same for the members of an object, which go into a table one after the other. -/
theorem mapM_entries_mirrors : (ms : Members) → ∀ {depth depth' : Nat} {m m' : Keyed Value}
    {es : List (Node × Node)}, ms.Mirrors isFaithful True es → ms.values depth m = .ok m' →
    depth ≤ depth' → ∃ entries, es.mapM (fun e => readText anchors e.1 >>= fun key =>
      jsonValue anchors depth' e.2 >>= fun v => pure (key, v)) = (pure entries : Steps _)
      ∧ m' = Keyed.overlay m entries
  | .closed, depth, depth', m, m', es, hes, hm, _ => by
    obtain rfl := hes
    obtain rfl := Except.ok.inj hm
    exact ⟨[], List.mapM_nil, rfl⟩
  | .broken _, depth, depth', m, m', es, hes, _, _ => hes.elim
  | .noKey _, depth, depth', m, m', es, hes, _, _ => hes.elim
  | .badKey _ _, depth, depth', m, m', es, hes, _, _ => hes.elim
  | .member key t rest, depth, depth', m, m', es, hes, hm, hdepth => by
    obtain ⟨k, text, n, es', rfl, rfl, hread, hn, hes'⟩ := hes
    obtain rfl := hread.same trivial
    obtain ⟨_, v, ⟨⟩, hv, hm⟩ := Members.values_member_eq_ok_iff.mp hm
    -- What the rest adds, it adds to a table that has this entry already.
    obtain ⟨entries, hentries, rfl⟩ := mapM_entries_mirrors rest hes' hm hdepth
    refine ⟨(String.ofList text, v) :: entries, ?_, rfl⟩
    rw [List.mapM_cons, readText_scalar, pure_bind, jsonValue_mirrors t hn hv hdepth, pure_bind,
      pure_bind, hentries, pure_bind]

end

/-- A node that mirrors a tree is no alias. -/
theorem follow_mirrors {t : Tree} {n : Node} (h : t.Mirrors isFaithful True n) :
    follow anchors n = pure n := by
  cases t with
  | null => obtain rfl := h; rfl
  | bool b => cases b <;> obtain rfl := h <;> rfl
  | number m => obtain ⟨ds, -, -, rfl⟩ := h; rfl
  | string s => obtain ⟨t, text, -, -, rfl⟩ := h; rfl
  | array items => obtain ⟨ns, rfl, -⟩ := h; rfl
  | object members => obtain ⟨es, rfl, -⟩ := h; rfl
  | broken => exact h.elim

/-- Nothing but `null` says that a value is absent. -/
theorem isAbsent_mirrors {t : Tree} {n : Node} (ht : t ≠ .null)
    (h : t.Mirrors isFaithful True n) : Reader.isAbsent n = some false := by
  cases t with
  | null => exact absurd rfl ht
  | bool b => cases b <;> obtain rfl := h <;> decide
  | number m =>
    obtain ⟨ds, ⟨numeral, hds, -⟩, -, rfl⟩ := h
    exact congrArg some (isNull_written hds)
  | string s => obtain ⟨t, text, -, -, rfl⟩ := h; rfl
  | array items => obtain ⟨ns, rfl, -⟩ := h; rfl
  | object members => obtain ⟨es, rfl, -⟩ := h; rfl
  | broken => exact h.elim

end Yaml

/-! ### Codecs -/

namespace Json.Codec

/-- **The reader gives what the codec gives**, for every node that mirrors the tree. -/
def ReadAlike (c : Codec α) (r : Reader α) : Prop :=
  ∀ ⦃anchors depth depth' t a n⦄, c.decode depth t = .ok a → depth ≤ depth' →
    t.Mirrors isFaithful True n → r.read anchors depth' n = pure a

/-- Texts are read alike. -/
theorem text_readAlike : text.ReadAlike .text := by
  intro anchors depth depth' t s n h _ hn
  cases t with
  | string text =>
    obtain ⟨t, text', rfl, hread, rfl⟩ := hn
    obtain rfl := Except.ok.inj h
    obtain rfl := hread.same trivial
    rfl
  | _ => exact absurd h (by simp [text, Tree.text])

/-- Flags are read alike. -/
theorem flag_readAlike : flag.ReadAlike .flag := by
  intro anchors depth depth' t b n h _ hn
  cases t with
  | bool b =>
    obtain rfl := Except.ok.inj h
    cases b <;> obtain rfl := hn <;> rfl
  | _ => exact absurd h (by simp [flag, Tree.flag])

/-- An integer of 32 bits is decoded from a number that is an integer. -/
theorem int32_eq_ok {t : Tree} {k : Int32} (h : t.int32 = .ok k) :
    ∃ i, t = .number (some (.int i)) ∧ int32? i = some k := by
  unfold Tree.int32 at h
  split at h
  · next i =>
    split at h
    · next hk => exact ⟨i, rfl, hk.trans (congrArg some (Except.ok.inj h))⟩
    · exact absurd h (by simp)
  · exact absurd h (by simp)

/-- Integers of 32 bits are read alike. -/
theorem int32_readAlike : int32.ReadAlike .int32 := by
  intro anchors depth depth' t k n h _ hn
  obtain ⟨i, rfl, hi⟩ := int32_eq_ok h
  obtain ⟨ds, ⟨numeral, hds, hvalue⟩, -, rfl⟩ := hn
  have hint : Yaml.int? ds = some i :=
    (Yaml.int?_written hds).trans (Numeral.int?_of_value? hvalue.symm)
  change (Yaml.ofOption (Yaml.int? ds) >>= fun i => Yaml.ofOption (int32? i)) = pure k
  rw [hint]
  change Yaml.ofOption (int32? i) = pure k
  rw [hi]
  rfl

variable {c : Codec α} {r : Reader α}

/-- Optional values are read alike if the values are. -/
theorem nullable_readAlike (h : c.ReadAlike r) : (nullable c).ReadAlike (.nullable r) := by
  intro anchors depth depth' t a n ha hdepth hn
  by_cases ht : t = .null
  · subst ht
    obtain rfl := hn
    obtain rfl := Except.ok.inj ha
    rfl
  · -- Only `null` is read as nothing, so both sides ask for the value.
    obtain ⟨a', ha', rfl⟩ := map_eq_ok.mp ((optional_of_ne_null _ ht).symm.trans ha)
    change (Yaml.follow anchors n >>= fun n => Yaml.ofOption (Reader.isAbsent n) >>= _) = _
    rw [Yaml.follow_mirrors hn, pure_bind, Yaml.isAbsent_mirrors ht hn]
    change (r.read anchors depth' n >>= fun a => pure (some a)) = _
    rw [h ha' hdepth hn, pure_bind]

/-- Items are read alike if each of them is. -/
theorem mapM_readAlike (h : c.ReadAlike r) (hdepth : depth ≤ depth') :
    ∀ {is : Items} {as : List α} {ns : List Node}, is.decode (c.decode depth) = .ok as →
      is.Mirrors isFaithful True ns → ns.mapM (r.read anchors depth') = pure as
  | .closed, as, ns, has, hns => by
    obtain rfl := hns
    obtain rfl := Except.ok.inj has
    rw [List.mapM_nil]
  | .broken _, as, ns, _, hns => hns.elim
  | .item t rest, as, ns, has, hns => by
    obtain ⟨n, ns', rfl, hn, hns'⟩ := hns
    obtain ⟨a, as, rfl, ha, has⟩ := Items.decode_item_eq_ok_iff.mp has
    rw [List.mapM_cons, h ha hdepth hn, pure_bind, mapM_readAlike h hdepth has hns', pure_bind]

/-- Lists are read alike if their items are. -/
theorem list_readAlike (h : c.ReadAlike r) : (list c).ReadAlike (.list r) := by
  intro anchors depth depth' t as n has hdepth hn
  obtain ⟨items, depth, rfl, rfl, has⟩ := list_decode_eq_ok_iff.mp has
  obtain ⟨ns, rfl, hns⟩ := hn
  obtain ⟨depth', rfl, hle⟩ := exists_of_succ_le hdepth
  exact mapM_readAlike h hle has hns

/-- The entries of a table are inserted one after the other. -/
theorem foldlM_readAlike (h : c.ReadAlike r) (hdepth : depth ≤ depth') :
    ∀ {ms : Members} {es : List (String × α)} {ns : List (Node × Node)} {m : SortedMap α},
      ms.decode (c.decode depth) = .ok es → ms.Mirrors isFaithful True ns →
      ns.foldlM (fun m e => Yaml.readText anchors e.1 >>= fun key =>
          r.read anchors depth' e.2 >>= fun a => pure (m.insert key a)) m
        = (pure (es.foldl (fun m e => m.insert e.1 e.2) m) : Steps _)
  | .closed, es, ns, m, hes, hns => by
    obtain rfl := hns
    obtain rfl := Except.ok.inj hes
    rfl
  | .broken _, es, ns, m, _, hns => hns.elim
  | .noKey _, es, ns, m, _, hns => hns.elim
  | .badKey _ _, es, ns, m, _, hns => hns.elim
  | .member key t rest, es, ns, m, hes, hns => by
    -- The key is read as it was written, since nothing in it was folded.
    obtain ⟨k, text, n, ns', rfl, rfl, hread, hn, hns'⟩ := hns
    obtain rfl := hread.same trivial
    obtain ⟨_, a, es', ⟨⟩, rfl, ha, hes'⟩ := Members.decode_member_eq_ok_iff.mp hes
    rw [List.foldlM_cons, Yaml.readText_scalar, pure_bind, h ha hdepth hn, pure_bind, pure_bind]
    exact foldlM_readAlike h hdepth hes' hns'

/-- Maps are read alike if their values are. -/
theorem map_readAlike (h : c.ReadAlike r) : (map c).ReadAlike (.map r) := by
  intro anchors depth depth' t m n hm hdepth hn
  obtain ⟨members, depth, es, rfl, rfl, hes, rfl⟩ := map_decode_eq_ok_iff.mp hm
  obtain ⟨ns, rfl, hns⟩ := hn
  obtain ⟨depth', rfl, hle⟩ := exists_of_succ_le hdepth
  exact foldlM_readAlike h hle hes hns

end Json.Codec

/-- Raw schemas are read alike: both store the text of the value. -/
theorem RawSchema.codec_readAlike : RawSchema.codec.ReadAlike .rawSchema := by
  intro anchors depth depth' t raw n h hdepth hn
  obtain ⟨v, hv, hraw⟩ := bind_eq_ok.mp h
  change (Yaml.jsonValue anchors depth' n >>= _) = _
  rw [Yaml.jsonValue_mirrors t hn hv hdepth, pure_bind]
  cases v with
  | null => exact absurd hraw (by simp [embedded])
  | _ =>
    obtain rfl := Except.ok.inj hraw
    rfl

/-! ### Records -/

namespace Fields

open Json (Codec)

/-- **Fields that are read alike**, under the same names and with the same values where they are
missing. -/
inductive ReadAlike : {σ β : Type} → Fields Codec σ β → Fields Reader σ β → Prop
  | done : ReadAlike .done .done
  | field {α β σ : Type} {name : String} {c : Codec α} {r : Reader α} {absent : Option α}
    {omits omits' : α → Bool} {f : Fields Codec σ β} {g : Fields Reader σ β}
    (codec : c.ReadAlike r) (others : ReadAlike f g) :
    ReadAlike (.field name c absent omits f) (.field name r absent omits' g)

/-- Fills the slot of the field `k` with what is read from a node, if there is one. -/
def takeOne (g : Fields Reader σ β) (anchors : List (Nat × Node)) (depth : Nat) (k : String)
    (n : Node) (slots : σ) : Option (Steps σ) :=
  g.put (m := Steps) (fun r => r.read anchors depth n) (fun _ => failure) k slots

section

variable {name k : String} {r : Reader α} {absent : Option α} {omits : α → Bool}
  {rest : Fields Reader σ β} {n : Node} {slots : σ}

/-- A field takes the entry with its name. -/
theorem takeOne_self : (Fields.field name r absent omits rest).takeOne anchors depth name n
    (none, slots) = some (r.read anchors depth n >>= fun a => pure (some a, slots)) := by
  rw [takeOne, put, if_pos rfl]
  rfl

/-- An entry with another name is left to the other fields. -/
theorem takeOne_of_ne {slot : Option α} (h : name ≠ k) :
    (Fields.field name r absent omits rest).takeOne anchors depth k n (slot, slots)
      = (rest.takeOne anchors depth k n slots).map fun act => act >>= fun slots =>
        pure (slot, slots) := by
  rw [takeOne, put, if_neg h, takeOne]

end

namespace ReadAlike

variable {f : Fields Codec σ β} {g : Fields Reader σ β} {slots slots' : σ} {k : String} {t : Tree}
  {n : Node}

/-- Both start with the same empty slots. -/
theorem empty (h : ReadAlike f g) : g.empty = f.empty := by
  induction h with
  | done => rfl
  | field _ _ ih =>
    rw [Fields.empty, Fields.empty, ih]

/-- Both make the same of full slots. -/
theorem finish (h : ReadAlike f g) : g.finish slots = f.finish slots := by
  induction h with
  | done => rfl
  | field _ _ ih =>
    obtain ⟨slot, slots⟩ := slots
    rw [Fields.finish, Fields.finish, ih]

/-- A member that fills a slot fills the same slot with the same value. -/
theorem takeOne (h : ReadAlike f g) (hdepth : depth ≤ depth') (hn : t.Mirrors isFaithful True n)
    (hfill : f.fillOne depth k t slots = some (.ok slots')) :
    g.takeOne anchors depth' k n slots = some (pure slots') := by
  induction h with
  | done => exact absurd hfill (by simp [Fields.fillOne, put])
  | @field α β σ name c r absent omits omits' f g hcodec _ ih =>
    obtain ⟨slot, slots⟩ := slots
    obtain ⟨slot', slots'⟩ := slots'
    -- The member belongs to this field or to another one.
    obtain ⟨rfl, rfl, rfl, a, ha, rfl⟩ | ⟨hk, rfl, hfilled⟩ := fillOne_field_eq_ok_iff.mp hfill
    · rw [takeOne_self, hcodec ha hdepth hn, pure_bind]
    · rw [takeOne_of_ne hk, ih hfilled, Option.map_some, pure_bind]

/-- A member of no field is none for the reader either. -/
theorem takeOne_eq_none (h : ReadAlike f g) (hfill : f.fillOne depth k t slots = none) :
    g.takeOne anchors depth' k n slots = none := by
  induction h with
  | done => rfl
  | @field α β σ name c r absent omits omits' f g _ _ ih =>
    obtain ⟨slot, slots⟩ := slots
    obtain ⟨hk, hfill⟩ := fillOne_field_eq_none_iff.mp hfill
    rw [takeOne_of_ne hk, ih hfill, Option.map_none]

/-- Entries are taken one by one, and those of no field are passed over. -/
theorem fill_cons {text : List Char} {es : List (Node × Node)} :
    Reader.fill g anchors depth ((.scalar none none .other text, n) :: es) slots
      = match g.takeOne anchors depth (String.ofList text) n slots with
        | some filled => filled >>= Reader.fill g anchors depth es
        | none => Reader.fill g anchors depth es slots :=
  rfl

/-- The members of an object fill the slots alike. -/
theorem fill (h : ReadAlike f g) (hdepth : depth ≤ depth') : ∀ {ms : Members}
    {es : List (Node × Node)} {slots slots' : σ}, ms.fill f depth slots = .ok slots' →
    ms.Mirrors isFaithful True es → Reader.fill g anchors depth' es slots = pure slots'
  | .closed, es, slots, slots', hfill, hes => by
    obtain rfl := hes
    obtain rfl := Except.ok.inj hfill
    rfl
  | .broken _, es, slots, slots', _, hes => hes.elim
  | .noKey _, es, slots, slots', _, hes => hes.elim
  | .badKey _ _, es, slots, slots', _, hes => hes.elim
  | .member key t rest, es, slots, slots', hfill, hes => by
    obtain ⟨k, text, n, es', rfl, rfl, hread, hn, hes'⟩ := hes
    obtain rfl := hread.same trivial
    rw [fill_cons]
    obtain ⟨_, ⟨⟩, ⟨slots₁, hfilled, hmore⟩ | ⟨hnone, -, hmore⟩⟩ := fill_member_eq_ok_iff.mp hfill
    · rw [h.takeOne hdepth hn hfilled]
      change (pure slots₁ >>= _) = _
      rw [pure_bind]
      exact h.fill hdepth hmore hes'
    · -- Both sides pass the member over, and the codec looks whether that can be done.
      rw [h.takeOne_eq_none hnone]
      exact h.fill hdepth hmore hes'

/-- The items of a list are taken alike. -/
theorem readFields (h : ReadAlike f g) (hdepth : depth ≤ depth') {items : Items} {position : Nat}
    {b : β} {ns : List Node} (hb : items.fields depth f position = .ok b)
    (hns : items.Mirrors isFaithful True ns) : Reader.readFields anchors depth' g ns = pure b := by
  induction h generalizing items position ns with
  | done =>
    cases items with
    | closed =>
      obtain rfl := hns
      rfl
    | broken => exact hns.elim
    | item t rest => exact absurd hb (by simp [Items.fields])
  | @field α β σ name c r absent omits omits' f g hcodec _ ih =>
    cases items with
    | broken => exact hns.elim
    | item t rest =>
      obtain ⟨n, ns', rfl, hn, hns'⟩ := hns
      obtain ⟨ha, hb⟩ := fields_item_eq_ok_iff.mp hb
      rw [Reader.readFields, hcodec ha hdepth hn, pure_bind, ih hb hns', pure_bind]
    | closed =>
      obtain rfl := hns
      -- The list ends early on both sides, and the field takes its value for that.
      obtain ⟨a, b⟩ := b
      obtain ⟨rfl, hmore⟩ := fields_closed_eq_ok_iff.mp hb
      have hclosed : Items.closed.Mirrors isFaithful True [] := rfl
      rw [Reader.readFields]
      change (Reader.readFields anchors depth' g [] >>= fun b => pure (a, b)) = _
      rw [ih hmore hclosed, pure_bind]

end ReadAlike

end Fields

namespace Json.Codec

/-- **A record is read alike if its fields are.** -/
theorem record_readAlike {f : Fields Codec σ β} {g : Fields Reader σ β} {make : β → α}
    {split : α → β} (h : Fields.ReadAlike f g) :
    (record f make split).ReadAlike (.record g make) := by
  intro anchors depth depth' t a n ha hdepth hn
  obtain ⟨depth, b, rfl, rfl, ⟨members, slots, rfl, hslots, hb⟩ | ⟨items, rfl, hb⟩⟩ :=
    record_decode_eq_ok_iff.mp ha
  all_goals obtain ⟨depth', rfl, hle⟩ := exists_of_succ_le hdepth
  · -- The record is an object: its fields are filled by name.
    obtain ⟨es, rfl, hes⟩ := hn
    change (Reader.fill g anchors depth' es g.empty >>= Reader.finish g make) = _
    rw [h.empty, h.fill hle hslots hes, pure_bind, Reader.finish, h.finish, hb]
  · -- The record is a list: its fields are filled in order.
    obtain ⟨ns, rfl, hns⟩ := hn
    change (Reader.readFields anchors depth' g ns >>= fun b => pure (make b)) = _
    rw [h.readFields hle hb hns, pure_bind]

/-- Records are written as objects or as lists. -/
theorem bracketed_of_record {f : Fields Codec σ β} {make : β → α} {split : α → β} {t : Tree} {a : α}
    (h : (record f make split).decode depth t = .ok a) : t.Bracketed := by
  obtain ⟨_, _, -, -, ⟨_, _, rfl, -⟩ | ⟨_, rfl, -⟩⟩ := record_decode_eq_ok_iff.mp h
  · trivial
  · trivial

/-! ### Whole documents -/

/-- **A JSON document that is decoded is read alike**, if it is passable as a document of YAML.
The document is a list or an object. -/
theorem ReadAlike.ofText? {c : Codec α} {r : Reader α} (h : c.ReadAlike r) (hthorough : c.Thorough)
    {text : String} {a : α} (ha : c.read (.ofText text) = .ok a)
    (hroot : (Document.ofText text).root.Bracketed)
    (hpassable : Yaml.passable isFaithful text.toList = true) : r.ofText? text = some a := by
  -- The text was read to its end, so all of it is written in the tree.
  obtain ⟨rest, hwritten, hend⟩ := hthorough.written ha
  obtain ⟨hdecode, -⟩ := decode_eq_ok_iff.mp ha
  -- The text has a node, and it mirrors the tree.
  have hnode : Yields True (Yaml.Node.ofText? text.toList) _ :=
    Yaml.Node.ofText?_written hroot hwritten hend fun _ => hpassable
  obtain ⟨n, hn⟩ := hnode.total trivial
  have hdepth : maxDepth ≤ Yaml.maxDepth := by decide
  have hread : r.read n.anchored.reverse Yaml.maxDepth n = pure a :=
    h hdecode hdepth (hnode.sound n hn)
  rw [Reader.ofText?, hn]
  change (r.read n.anchored.reverse Yaml.maxDepth n).run' (Yaml.aliasLimit n) = some a
  rw [hread]
  rfl

end Json.Codec

end CompositeCrd
