import CompositeCrd.Proofs.Command.Session
import CompositeCrd.Proofs.Schema.Whole
import CompositeCrd.Proofs.Yaml.Extract

/-!
# Whether a definition is established, by command

The command that tells whether a definition is established does not read a definition. It reads
a YAML document of which it knows nothing, looks up a status in it, and reads that. For the JSON
document of a definition this comes to what the definition itself says
(`established_answers_for_definition`), up to three limits: YAML must read the document at all,
as it does when it admits the text (`Yaml.admits`); the status and its conditions must have their
fields by name; and a document without a status must not look like one.
-/

namespace CompositeCrd

open Json Json.Codec
open Yaml (Extract Folded Yields spaceless)

variable {α β σ : Type} {depth : Nat}

/-! ### Statuses in both notations -/

/-- The texts of a name without spaces are the same. -/
theorem SameText.eq_iff {s s' name : String} (h : SameText s s')
    (hname : spaceless name.toList = true) : s = name ↔ s' = name := by
  rw [← String.toList_inj, ← String.toList_inj]
  exact Folded.eq_iff h hname

namespace Condition

/-- Whether a condition has its fields by name, and a text for its status. -/
def named : Tree → Bool :=
  Tree.byName fun k t => k != "status" || t.isText

/-- The conditions differ at most in the line breaks of their texts. -/
structure Same (c c' : Condition) : Prop where
  type : SameText c.type c'.type
  status : c.status = c'.status
  reason : Option.Rel SameText c.reason c'.reason
  message : Option.Rel SameText c.message c'.message
  lastTransitionTime : Option.Rel SameText c.lastTransitionTime c'.lastTransitionTime

/-- A condition is extracted as it was decoded. -/
theorem form_agrees : (form : Codec Condition).Agrees form named Same := by
  have hspell : ∀ a : ConditionStatus, spaceless (Spelled.spell a).toList = true := by
    intro a
    cases a <;> decide
  have hoptional {p : Tree → Bool} : (nullable text).Agrees
      (Extract.nullable ⟨Extract.textOf⟩) p (Option.Rel SameText) := nullable_agrees text_agrees rfl
  refine record_agrees
    (.field text_agrees (by decide) .none <|
      .field (spelled_agrees hspell) (by decide) .none <|
      .field hoptional (by decide) (.some .none) <| .field hoptional (by decide) (.some .none) <|
      .field hoptional (by decide) (.some .none) .done) ?_
  rintro b b' ⟨htype, hstatus, hreason, hmessage, htime, -⟩
  exact ⟨htype, hstatus, hreason, hmessage, htime⟩

/-- Line breaks in texts do not decide whether instances can be created. -/
theorem established_congr {cs cs' : List Condition} (h : List.Forall₂ Same cs cs') :
    established cs = established cs' := by
  induction h with
  | nil => rfl
  | @cons c c' cs cs' hc _ ih =>
    unfold established at ih ⊢
    -- Folding neither makes nor breaks the type that is looked for.
    have htype : (c.type == establishedType) = (c'.type == establishedType) := by
      rw [Bool.eq_iff_iff, beq_iff_eq, beq_iff_eq]
      exact hc.type.eq_iff (by decide)
    rw [List.find?_cons, List.find?_cons, ← htype]
    cases c.type == establishedType with
    | false => exact ih
    | true =>
      dsimp only
      rw [hc.status]

/-- **The first condition of the type decides**, whatever stands before, between and behind. -/
theorem established_iff {cs : List Condition} : established cs = true ↔ ∃ front c back,
    cs = front ++ c :: back ∧ (∀ c' ∈ front, c'.type ≠ establishedType)
      ∧ c.type = establishedType ∧ c.status = .true := by
  unfold established
  cases hfind : cs.find? (·.type == establishedType) with
  -- No condition has the type.
  | none =>
    refine iff_of_false (by simp) ?_
    rintro ⟨front, c, back, rfl, -, htype, -⟩
    have hc := List.find?_eq_none.mp hfind c (by simp)
    exact hc (beq_iff_eq.mpr htype)
  | some c =>
    obtain ⟨htype, front, back, rfl, hfront⟩ := List.find?_eq_some_iff_append.mp hfind
    have hfront' : ∀ c' ∈ front, c'.type ≠ establishedType := by
      intro c' hc' heq
      exact absurd (hfront c' hc') (by simp [heq])
    -- The first condition of the type decides.
    refine ⟨fun h => ⟨front, c, back, rfl, hfront', beq_iff_eq.mp htype, beq_iff_eq.mp h⟩, ?_⟩
    rintro ⟨front₂, c₂, back₂, heq, hfront₂, htype₂, hstatus₂⟩
    have hfind₂ : (front ++ c :: back).find? (·.type == establishedType) = some c₂ := by
      refine List.find?_eq_some_iff_append.mpr ⟨beq_iff_eq.mpr htype₂, front₂, back₂, heq, ?_⟩
      exact fun c' hc' => by simpa using hfront₂ c' hc'
    obtain rfl := Option.some.inj (hfind.symm.trans hfind₂)
    exact beq_iff_eq.mpr hstatus₂

end Condition

namespace CrdStatus

/-- Whether a status has its conditions by name, and these their fields. -/
def named : Tree → Bool :=
  Tree.byName fun k t => k != "conditions" || t.lists Condition.named

/-- So is a status, condition by condition. -/
theorem form_agrees : (form : Codec CrdStatus).Agrees form named
    fun s s' => List.Forall₂ Condition.Same s.conditions s'.conditions := by
  refine record_agrees
    (.field (list_agrees Condition.form_agrees) (by decide) (.some .nil) .done) ?_
  rintro b b' ⟨hconditions, -⟩
  exact hconditions

end CrdStatus

/-! ### The slot of a field -/

namespace Fields

variable {name : String} {c : Codec α} {absent : Option α} {omits : α → Bool}
  {rest : Fields Codec σ β} {slot slot' : Option α} {slots slots' : σ}

/-- A name that is none of the fields fills nothing. -/
theorem fillOne_of_not_mem_names : ∀ {σ β : Type} {fields : Fields Codec σ β} {slots : σ}
    {k : String} {t : Tree}, k ∉ fields.names → fields.fillOne depth k t slots = none
  | _, _, .done, _, _, _, _ => rfl
  | _, _, .field name c absent omits rest, (slot, slots), k, t, h => by
    obtain ⟨hne, hrest⟩ := not_or.mp (mt List.mem_cons.mpr h)
    rw [fillOne_of_ne (Ne.symm hne), fillOne_of_not_mem_names hrest]
    rfl

/-- The fields behind the first one are read from the same members, of which the first one's is
none of theirs. -/
theorem fill_rest (hc : c.Thorough) (hname : name ∉ rest.names) :
    ∀ {ms : Members} {slot slot' : Option α} {slots slots' : σ},
      ms.fill (.field name c absent omits rest) depth (slot, slots) = .ok (slot', slots') →
      ms.fill rest depth slots = .ok slots'
  | .closed, _, _, _, _, h => by
    obtain ⟨-, rfl⟩ := Prod.mk.inj (Except.ok.inj h)
    rfl
  | .broken _, _, _, _, _, h | .noKey _, _, _, _, _, h | .badKey _ _, _, _, _, _, h =>
    absurd h (by simp [Members.fill])
  | .member key t ms, slot, slot', slots, slots', h => by
    obtain ⟨k, rfl, ⟨⟨slot₁, slots₁⟩, hfilled, hrest⟩ | ⟨hnone, hskip, hrest⟩⟩ :=
      fill_member_eq_ok_iff.mp h
    · refine fill_member_eq_ok_iff.mpr ⟨k, rfl, ?_⟩
      obtain ⟨rfl, -, rfl, a, ha, -⟩ | ⟨-, rfl, hothers⟩ := fillOne_field_eq_ok_iff.mp hfilled
      · -- The member of the first field is passed over.
        exact .inr ⟨fillOne_of_not_mem_names hname, hc ha, fill_rest hc hname hrest⟩
      · exact .inl ⟨slots₁, hothers, fill_rest hc hname hrest⟩
    · obtain ⟨-, hothers⟩ := fillOne_field_eq_none_iff.mp hnone
      exact fill_member_eq_ok_iff.mpr ⟨k, rfl, .inr ⟨hothers, hskip, fill_rest hc hname hrest⟩⟩

/-- A full slot stays as it is, since its field is not met again. -/
theorem fill_full : ∀ {ms : Members} {a : α} {slot' : Option α},
    ms.fill (.field name c absent omits .done) depth (some a, ()) = .ok (slot', ()) →
    ms.find? name = none ∧ slot' = some a
  | .closed, _, _, h => by
    obtain ⟨rfl, -⟩ := Prod.mk.inj (Except.ok.inj h)
    exact ⟨rfl, rfl⟩
  | .broken _, _, _, h | .noKey _, _, _, h | .badKey _ _, _, _, h =>
    absurd h (by simp [Members.fill])
  | .member key t ms, a, slot', h => by
    obtain ⟨k, rfl, ⟨⟨_, _⟩, hfilled, -⟩ | ⟨hnone, -, h⟩⟩ := fill_member_eq_ok_iff.mp h
    · -- The slot is taken, so another member of the name would be an error.
      obtain ⟨-, ⟨⟩, -⟩ | ⟨-, -, hfilled⟩ := fillOne_field_eq_ok_iff.mp hfilled
      exact absurd hfilled (by simp [fillOne, put])
    · obtain ⟨hk, -⟩ := fillOne_field_eq_none_iff.mp hnone
      rw [Members.find?, if_neg fun heq => hk (Option.some.inj heq).symm]
      exact fill_full h

/-- An empty slot takes the first member under its field's name. -/
theorem fill_empty : ∀ {ms : Members} {slot' : Option α},
    ms.fill (.field name c absent omits .done) depth (none, ()) = .ok (slot', ()) →
    Option.Rel (fun t a => c.decode depth t = .ok a) (ms.find? name) slot'
  | .closed, _, h => by
    obtain ⟨rfl, -⟩ := Prod.mk.inj (Except.ok.inj h)
    exact .none
  | .broken _, _, h | .noKey _, _, h | .badKey _ _, _, h => absurd h (by simp [Members.fill])
  | .member key t ms, slot', h => by
    obtain ⟨k, rfl, ⟨⟨_, _⟩, hfilled, h⟩ | ⟨hnone, -, h⟩⟩ := fill_member_eq_ok_iff.mp h
    · obtain ⟨rfl, -, -, a, ha, rfl⟩ | ⟨-, -, hfilled⟩ := fillOne_field_eq_ok_iff.mp hfilled
      · -- The slot is taken now, and stays as it is.
        obtain ⟨-, rfl⟩ := fill_full h
        rw [Members.find?, if_pos rfl]
        exact .some ha
      · exact absurd hfilled (by simp [fillOne, put])
    · obtain ⟨hk, -⟩ := fillOne_field_eq_none_iff.mp hnone
      rw [Members.find?, if_neg fun heq => hk (Option.some.inj heq).symm]
      exact fill_empty h

end Fields

namespace Crd

variable {members : Members} {crd : Crd}

/-- The status of a definition is read from the member that is called so, and there is none
without that member. -/
theorem status_of_decode (h : form.decode (depth + 1) (.object members) = .ok crd) :
    match members.find? "status" with
    | some t => (nullable CrdStatus.form).decode depth t = .ok crd.status
    | none => crd.status = none := by
  obtain ⟨_, b, ⟨⟩, rfl, ⟨_, ⟨_, _, _, _, slot, _⟩, ⟨⟩, hfill, hb⟩ | ⟨_, ⟨⟩, -⟩⟩ :=
    record_decode_eq_ok_iff.mp h
  -- Of the five fields the status is the last one.
  have hspec := Fields.fill_rest text_thorough (by decide) hfill
  have hspec := Fields.fill_rest text_thorough (by decide) hspec
  have hspec := Fields.fill_rest ObjectMeta.form_thorough (by decide) hspec
  have hstatus := Fields.fill_empty (Fields.fill_rest CrdSpec.form_thorough (by decide) hspec)
  obtain ⟨-, hb⟩ := Fields.finish_field_eq_ok_iff.mp hb
  obtain ⟨-, hb⟩ := Fields.finish_field_eq_ok_iff.mp hb
  obtain ⟨-, hb⟩ := Fields.finish_field_eq_ok_iff.mp hb
  obtain ⟨-, hb⟩ := Fields.finish_field_eq_ok_iff.mp hb
  obtain ⟨hslot, -⟩ := Fields.finish_field_eq_ok_iff.mp hb
  change match members.find? "status" with
    | some t => (nullable CrdStatus.form).decode depth t = .ok b.2.2.2.2.1
    | none => b.2.2.2.2.1 = none
  generalize members.find? "status" = t at hstatus ⊢
  cases hstatus with
  | none => exact (Option.some.inj hslot).symm
  | some ht => rwa [← Option.some.inj hslot]

/-- Whether a document says by name what is reported, or says nothing and is none of the
documents that are a status themselves. -/
def reportsByName : Tree → Bool
  | .object members => match members.find? "status" with
    | some .null => true
    | some t => CrdStatus.named t
    | none => (members.find? "conditions").isNone
  | _ => false

/-- Without the field's key a record of one field stays empty. -/
theorem fill_of_find?_eq_none {name : String} {e : Extract α} {absent : Option α}
    {omits : α → Bool} {slots : Option α × Unit} (hname : spaceless name.toList = true) :
    ∀ {ms : Members} {es : List (Yaml.Dynamic × Yaml.Dynamic)}, ms.Seen es → ms.find? name = none →
      Extract.fill (.field name e absent omits .done) es slots = some slots
  | .closed, es, hes, _ => by
    obtain rfl := hes
    rfl
  | .broken _, es, hes, _ | .noKey _, es, hes, _ | .badKey _ _, es, hes, _ => hes.elim
  | .member key t rest, es, hes, hfind => by
    obtain ⟨k, text, v, es', rfl, rfl, hfolded, -, hes'⟩ := hes
    rw [Members.find?] at hfind
    split at hfind
    · exact absurd hfind (by simp)
    · next hk =>
      have hne : name ≠ String.ofList text := by
        intro heq
        exact hk (congrArg some ((key_eq_iff hfolded hname).mpr heq.symm))
      -- The entry has another name, so it is passed over.
      obtain ⟨slot, slots⟩ := slots
      rw [Fields.Agree.fill_cons, Fields.readOne_of_ne hne]
      exact fill_of_find?_eq_none hname hes' hfind

/-- **What is read from the document without a shape is what the definition says.** -/
theorem exists_status_read {t : Tree} {v : Yaml.Dynamic} (h : form.decode (depth + 1) t = .ok crd)
    (hreports : reportsByName t = true) (hv : t.Seen v) :
    ∃ status : CrdStatus, Extract.read CrdStatus.form ((v.get? "status").getD v) = some status
      ∧ status.established = crd.established := by
  obtain ⟨members, rfl⟩ : ∃ members, t = .object members := by
    cases t with
    | object members => exact ⟨members, rfl⟩
    | _ => exact absurd hreports (by simp [reportsByName])
  have hstatus := status_of_decode h
  have hget : Option.Rel Tree.Seen (members.find? "status") (v.get? "status") := hv.get? (by decide)
  unfold reportsByName at hreports
  dsimp only at hreports
  generalize members.find? "status" = found at hstatus hget hreports
  generalize v.get? "status" = seen at hget ⊢
  cases hget with
  | none =>
    -- The document is taken for a status, and has no conditions.
    obtain ⟨es, rfl, hes⟩ := hv
    let fields : Fields Extract (Option (List Condition) × Unit) (List Condition × Unit) :=
      .field "conditions" (Extract.list Condition.form) (some []) (fun _ => false) .done
    have hfill : Extract.fill fields es (none, ()) = some (none, ()) :=
      fill_of_find?_eq_none (by decide) hes (Option.isNone_iff_eq_none.mp hreports)
    refine ⟨{}, ?_, ?_⟩
    · change (Extract.fill fields es (none, ())).bind _ = _
      rw [hfill]
      rfl
    · rw [Crd.established, hstatus]
      rfl
  | @some t v' ht =>
    -- A status that is `null` is none, and one without conditions.
    by_cases hnull : t = .null
    · subst hnull
      obtain rfl := ht
      have hnone : crd.status = none := (Except.ok.inj hstatus).symm
      refine ⟨{}, rfl, ?_⟩
      rw [Crd.established, hnone]
      rfl
    · -- Else both sides read the same conditions.
      have hnamed : CrdStatus.named t = true := by
        cases t with
        | null => exact absurd rfl hnull
        | _ => exact hreports
      change t.optional _ = _ at hstatus
      rw [optional_of_ne_null _ hnull] at hstatus
      obtain ⟨status, hdecode, hsome⟩ := map_eq_ok.mp hstatus
      obtain ⟨status', hread, hsame⟩ := CrdStatus.form_agrees hdecode hnamed ht
      refine ⟨status', hread, ?_⟩
      rw [Crd.established, ← hsome]
      exact (Condition.established_congr hsame).symm

end Crd

/-! ### The command -/

/-- What YAML reads in the file of a definition is what the definition looks like. -/
theorem yields_seen {text : String} {crd : Crd} (hcrd : Crd.form.read (.ofText text) = .ok crd)
    (hreports : Crd.reportsByName (Document.ofText text).root = true) :
    Yields (Yaml.admits text = true) (Yaml.Dynamic.ofText? text)
      (Document.ofText text).root.Seen := by
  have hadmits (h : Yaml.admits text = true) :
      Yaml.passable Yaml.isReadable text.toList = true
        ∧ (Document.ofText text).root.orderly Yaml.maxDepth = true := by
    rwa [Yaml.admits, Bool.and_eq_true] at h
  -- The definition was read to the end of the document.
  obtain ⟨r, hwritten, hend⟩ := Crd.form_thorough.written hcrd
  cases hroot : (Document.ofText text).root with
  | object members =>
    rw [hroot] at hwritten hadmits
    exact Yaml.Dynamic.ofText?_written hwritten hend (fun h => (hadmits h).1)
      fun h => (hadmits h).2
  | _ => exact absurd hreports (by simp [hroot, Crd.reportsByName])

/-- What the file of a definition says. -/
theorem establishedIn_eq {path text : String} {crd : Crd} {v : Yaml.Dynamic}
    (hcrd : Crd.form.read (.ofText text) = .ok crd)
    (hreports : Crd.reportsByName (Document.ofText text).root = true)
    (hyaml : Yaml.Dynamic.ofText? text = some v) :
    establishedIn path text = .ok crd.established := by
  have hv := (yields_seen hcrd hreports).sound v hyaml
  obtain ⟨hdecode, -⟩ := decode_eq_ok_iff.mp hcrd
  obtain ⟨status, hread, hstatus⟩ := Crd.exists_status_read hdecode hreports hv
  rw [establishedIn, hyaml]
  dsimp only
  rw [hread]
  exact congrArg Except.ok hstatus

namespace Session

variable {s : Session} {path text : String}

/-- The command prints its answer, or fails with the session as it was. -/
theorem perform_runEstablished : s.perform (Command.runEstablished path)
    = match (((s.tree.find? path).bind Entry.text).mapError (.unreadable path)).bind
        (establishedIn path) with
      | .error e => (.error e, s)
      | .ok true => (.ok .done, s.printing "established\n")
      | .ok false => (.ok .negative, s.printing "not established\n") := by
  unfold Command.runEstablished
  rw [perform_bind, perform_asking, run_readText]
  cases (s.tree.find? path).bind Entry.text with
  | error e => rfl
  | ok text =>
    dsimp only [Except.mapError, Except.bind]
    rw [perform_bind, perform_liftExcept]
    rcases establishedIn path text with e | _ | _ <;> rfl

/-- Carrying out the command is asking whether the document has been established. -/
theorem carryOut_established {words : List String} {verbose : Bool}
    (hwords : Invocation.ofWords words = .ok { command := .established path, verbose })
    (htext : (s.tree.find? path).bind Entry.text = .ok text) :
    (s.carryOut words).1 = match establishedIn path text with
      | .error _ => .failed
      | .ok true => .done
      | .ok false => .negative := by
  rw [carryOut_eq hwords, Invocation.run, perform_runEstablished, htext]
  dsimp only [Except.mapError, Except.bind]
  rcases establishedIn path text with e | _ | _ <;> rfl

end Session

/-- **The command answers for the definition in a file.** The exit code is 0 if the definition is
established and 2 if it is not, and 1 only for a text that YAML does not read, which is none of
those that it admits. -/
theorem established_answers_for_definition {words : List String} {path text : String}
    {verbose : Bool} {s : Session} {crd : Crd}
    (hwords : Invocation.ofWords words = .ok { command := .established path, verbose })
    (htext : (s.tree.find? path).bind Entry.text = .ok text)
    (hcrd : Crd.form.read (.ofText text) = .ok crd)
    (hreports : Crd.reportsByName (Document.ofText text).root = true) :
    (s.carryOut words).1.code = (if (Yaml.Dynamic.ofText? text).isNone then 1
        else if crd.established then 0 else 2)
      ∧ (Yaml.admits text = true → (Yaml.Dynamic.ofText? text).isNone = false)
      ∧ (crd.established = true ↔ ∃ status, crd.status = some status ∧ ∃ front c back,
        status.conditions = front ++ c :: back ∧ (∀ c' ∈ front, c'.type ≠ "Established")
          ∧ c.type = "Established" ∧ c.status = .true) := by
  refine ⟨?_, ?_, ?_⟩
  · rw [Session.carryOut_established hwords htext]
    cases hyaml : Yaml.Dynamic.ofText? text with
    | none =>
      rw [establishedIn, hyaml]
      rfl
    | some v =>
      rw [establishedIn_eq hcrd hreports hyaml]
      cases crd.established <;> rfl
  · -- An admitted text is read: what its tree holds is seen in it.
    intro hadmits
    obtain ⟨v, hv⟩ := (yields_seen hcrd hreports).total hadmits
    rw [hv]
    rfl
  · unfold Crd.established
    cases crd.status with
    | none => simp
    | some status =>
      simp only [Option.some.injEq, exists_eq_left']
      exact Condition.established_iff

/-! ### Documents to ask about -/

/-- A session with nothing but a document. -/
def Session.document (v : Value) : Session where
  tree.entries := [(["crd.json"], .file (Utf8.encode v.compact))]

/-- The definition in a document says that it is established, or not. -/
def Crd.said (v : Value) : Option Bool :=
  (form.read (.ofText v.compact)).toOption.map Crd.established

/-- The exit code of the command for a document. -/
def Session.answered (v : Value) : UInt32 :=
  ((Session.document v).carryOut ["established", "--input", "crd.json"]).1.code

/-- The words of the command. -/
theorem ofWords_established : Invocation.ofWords ["established", "--input", "crd.json"]
    = .ok { command := .established "crd.json", verbose := false } :=
  rfl

/-- The document of a session is found in its file. -/
theorem find?_document (v : Value) :
    ((Session.document v).tree.find? "crd.json").bind Entry.text = .ok v.compact := by
  change Entry.text (.file (Utf8.encode v.compact)) = _
  rw [Entry.text, Utf8.decode?_encode]

/-- A document in the compact layout is read by its characters. -/
theorem dynamic_ofText?_compact (v : Value) : Yaml.Dynamic.ofText? v.compact
    = (Yaml.Node.ofText? (v.write [])).bind (Yaml.Reader.ofRoot?
        ⟨fun anchors depth n => Yaml.Dynamic.ofNode anchors depth false n⟩) := by
  rw [Yaml.Dynamic.ofText?, Yaml.Reader.ofText?, Value.compact, String.toList_ofList]
  rfl

/-- The exit status for a document, by what is read of it. -/
theorem Session.answered_eq (v : Value) : Session.answered v = Outcome.code
    (match (Yaml.Node.ofText? (v.write [])).bind (Yaml.Reader.ofRoot?
        ⟨fun anchors depth n => Yaml.Dynamic.ofNode anchors depth false n⟩) with
      | none => .failed
      | some document =>
        match Extract.read CrdStatus.form ((document.get? "status").getD document) with
        | none => .failed
        | some status => if status.established then .done else .negative) := by
  rw [answered, carryOut_established ofWords_established (find?_document v), establishedIn,
    dynamic_ofText?_compact]
  cases (Yaml.Node.ofText? (v.write [])).bind _ with
  | none => rfl
  | some document =>
    dsimp only
    cases Extract.read CrdStatus.form ((document.get? "status").getD document) with
    | none => rfl
    | some status =>
      dsimp only
      cases status.established <;> rfl

/-- The document of a definition without versions, with more members. -/
def sizesCrd (more : Keyed Value) : Value :=
  .object ([("apiVersion", .string "apiextensions.k8s.io/v1"),
    ("kind", .string "CustomResourceDefinition"),
    ("metadata", .object [("name", .string "sizes.org")]),
    ("spec", .object [("group", .string "org"), ("scope", .string "Cluster"),
      ("versions", .array []),
      ("names", .object [("kind", .string "Size"), ("plural", .string "sizes")])])] ++ more)

/-- The document of a condition. -/
def conditionOf (type status : String) : Value :=
  .object [("type", .string type), ("status", .string status)]

/-- A definition that was refused at first and is established now. -/
def establishedCrd : Value :=
  sizesCrd [("status", .object [("conditions", .array [conditionOf "NamesAccepted" "False",
    conditionOf "Established" "True", conditionOf "Established" "False"])])]

theorem establishedCrd_answered :
    Crd.said establishedCrd = some true ∧ Session.answered establishedCrd = 0 := by
  have hproper : establishedCrd.Proper := by simp [establishedCrd, sizesCrd, conditionOf]
  have hstable : establishedCrd.Stable := by simp [establishedCrd, sizesCrd, conditionOf]
  -- There are no doubles in the document, so its text is read as itself.
  have hdocument : Document.ofText establishedCrd.compact = establishedCrd.document := by
    rw [ofText_compact hproper, hstable]
  obtain ⟨crd, hdecode, hestablished⟩ : ∃ crd,
      Crd.form.decode maxDepth establishedCrd.tree = .ok crd ∧ crd.established = true :=
    ⟨_, rfl, rfl⟩
  have hcrd : Crd.form.read (.ofText establishedCrd.compact) = .ok crd := by
    rw [hdocument, Codec.read, decode_document, hdecode]
  have hreports : Crd.reportsByName (Document.ofText establishedCrd.compact).root = true := by
    rw [hdocument]
    decide
  have hadmits : Yaml.admits establishedCrd.compact = true := by
    rw [Yaml.admits, hdocument, Value.compact, String.toList_ofList]
    decide +kernel
  obtain ⟨hcode, hread, -⟩ := established_answers_for_definition ofWords_established
    (find?_document establishedCrd) hcrd hreports
  rw [hread hadmits, hestablished] at hcode
  refine ⟨?_, hcode⟩
  rw [Crd.said, hcrd]
  exact congrArg some hestablished

/-- **The command does not answer for every definition**: YAML refuses a repeated member, a
document without a status is taken for one when it has conditions, and a condition without the
names of its fields is none. -/
theorem some_definitions_answered_otherwise :
    let repeating := sizesCrd [("x", .null), ("x", .null)]
    let bare := sizesCrd [("conditions", .array [conditionOf "Established" "True"])]
    let unnamed := sizesCrd [("status", .object [("conditions", .array [
      .array [.string "Established", .string "True"]])])]
    (Crd.said repeating = some false ∧ Session.answered repeating = 1)
      ∧ (Crd.said bare = some false ∧ Session.answered bare = 0)
      ∧ (Crd.said unnamed = some true ∧ Session.answered unnamed = 1) := by
  intro repeating bare unnamed
  -- What is said of a document is what its value is decoded as.
  have hsaid {v : Value} {crd : Crd} (hproper : v.Proper) (hstable : v.Stable)
      (hdecode : Crd.form.decode maxDepth v.tree = .ok crd) :
      Crd.said v = some crd.established := by
    rw [Crd.said, ofText_compact hproper, hstable, Codec.read, decode_document, hdecode]
    rfl
  refine ⟨⟨?_, ?_⟩, ⟨?_, ?_⟩, ?_, ?_⟩
  · exact hsaid (v := repeating) (by simp [repeating, sizesCrd]) (by simp [repeating, sizesCrd])
      rfl
  · rw [Session.answered_eq]
    decide +kernel
  · exact hsaid (v := bare) (by simp [bare, sizesCrd, conditionOf])
      (by simp [bare, sizesCrd, conditionOf]) rfl
  · rw [Session.answered_eq]
    decide +kernel
  · exact hsaid (v := unnamed) (by simp [unnamed, sizesCrd]) (by simp [unnamed, sizesCrd]) rfl
  · rw [Session.answered_eq]
    decide +kernel

end CompositeCrd
