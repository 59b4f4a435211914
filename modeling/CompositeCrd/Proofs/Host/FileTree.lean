import CompositeCrd.Host.FileTree
import CompositeCrd.Proofs.Outcome
import Mathlib.Data.List.Basic

/-!
# What changes in a file tree

Making a directory and writing a file put one thing at the place to which their path leads
(`FileTree.Puts`). Directories stay directories and files stay files then (`FileTree.Grows`), so
a path that leads somewhere goes on to lead there. Of several things that are put one after
another (`FileTree.Filled`), each is found where its path leads unless another one was put at the
same place (`Filled.kept`), and nothing else has changed (`Filled.changed`).

From a directory, the names of a path that has no two dots lead further down only
(`prefix_of_foldlM_step`).
-/

namespace CompositeCrd

/-! ### Paths -/

namespace Path

variable {path directory : String}

/-- A path has at least one stretch, though it may be empty. -/
theorem stretches_ne_nil (cs : List Char) : stretches cs ≠ [] := by
  unfold stretches
  split
  · simp
  · split
    · simp
    · split <;> simp

/-- A slash divides a path into two. -/
theorem stretches_append (cs ds : List Char) :
    stretches (cs ++ '/' :: ds) = stretches cs ++ stretches ds := by
  induction cs with
  | nil => rfl
  | cons c cs ih =>
    rw [List.cons_append, stretches, stretches, ih]
    split
    · rfl
    · -- A character other than the slash belongs to the first stretch.
      cases h : stretches cs with
      | nil => exact absurd h (stretches_ne_nil cs)
      | cons name names => rfl

/-- A path without a slash is one stretch. -/
theorem stretches_of_not_mem {cs : List Char} (h : '/' ∉ cs) : stretches cs = [cs] := by
  induction cs with
  | nil => rfl
  | cons c cs ih =>
    obtain ⟨hc, hcs⟩ := not_or.mp (mt List.mem_cons.mpr h)
    rw [stretches, if_neg (Ne.symm hc), ih hcs]

/-- A path without slashes is one name. -/
theorem names_of_not_mem (hslash : '/' ∉ path.toList) (hempty : path.toList ≠ []) :
    names path = [path] := by
  rw [names, stretches_of_not_mem hslash, List.filter_cons_of_pos (by simpa using hempty)]
  simp

/-- The names of a path that is followed from where another one leads are those of both. -/
theorem names_join (hrooted : rooted path = false) :
    names (join directory path) = names directory ++ names path := by
  have happend (cs : List Char) :
      ((stretches (cs ++ '/' :: path.toList)).filter (!·.isEmpty)).map String.ofList
        = ((stretches cs).filter (!·.isEmpty)).map String.ofList ++ names path := by
    rw [stretches_append, List.filter_append, List.map_append, names]
  rw [join, hrooted, if_neg (by simp)]
  split
  · next hclosed =>
    -- The slash at the end of the directory adds no name.
    obtain ⟨cs, hcs⟩ : ∃ cs, directory.toList = cs ++ ['/'] := by
      rw [closed, beq_iff_eq] at hclosed
      exact ⟨_, (List.dropLast_append_getLast? _ hclosed).symm⟩
    have hdirectory : names directory
        = ((stretches cs).filter (!·.isEmpty)).map String.ofList := by
      rw [names, hcs, stretches_append]
      simp [stretches]
    rw [hdirectory, ← happend, names, String.toList_append, hcs, List.append_assoc]
    rfl
  · rw [names, String.toList_append, String.toList_append, List.append_assoc]
    exact happend directory.toList

/-- A path that goes down only: it does not begin at the root, and none of its names is two
dots. -/
def Descends (path : String) : Prop :=
  rooted path = false ∧ ".." ∉ names path

/-- It does not lead from the root. -/
theorem rooted_of_not_mem (hslash : '/' ∉ path.toList) : rooted path = false := by
  unfold rooted
  rw [beq_eq_false_iff_ne]
  intro h
  exact hslash (List.mem_of_head? h)

/-- A path below a directory is rooted when that of the directory is. -/
theorem rooted_join (hempty : directory.toList ≠ []) (hrooted : rooted path = false) :
    rooted (join directory path) = rooted directory := by
  have happend (s : String) : rooted (directory ++ s) = rooted directory := by
    unfold rooted
    rw [String.toList_append, List.head?_append_of_ne_nil _ hempty]
  rw [join, hrooted, if_neg (by simp)]
  split
  · exact happend path
  · rw [String.append_assoc]
    exact happend _

end Path

namespace FileTree

variable {t t₁ t' : FileTree} {path : String} {place base : Location} {e : Entry} {name : String}
  {names : List String} {bytes : List UInt8} {puts : List (String × Entry)}

/-! ### Places -/

/-- The place to which a path leads. -/
def placeOf (t : FileTree) (path : String) : Except FileError Location :=
  t.locate path (Path.names path)

/-- The directories and files of a tree are there in another one too, though a file may hold
something else. -/
structure Grows (t t' : FileTree) : Prop where
  working : t'.working = t.working
  directory : ∀ {place}, t.get? place = some .directory → t'.get? place = some .directory
  file : ∀ {place bytes}, t.get? place = some (.file bytes) →
    ∃ bytes', t'.get? place = some (.file bytes')

theorem Grows.refl (t : FileTree) : t.Grows t :=
  ⟨rfl, id, fun h => ⟨_, h⟩⟩

theorem Grows.trans (h : t.Grows t₁) (h' : t₁.Grows t') : t.Grows t' where
  working := h'.working.trans h.working
  directory hplace := h'.directory (h.directory hplace)
  file hplace := by
    obtain ⟨bytes, hbytes⟩ := h.file hplace
    exact h'.file hbytes

/-- A name leads on from directories only. -/
theorem get?_of_step (h : t.step place name = .ok base) : t.get? place = some .directory := by
  unfold step at h
  split at h
  · simp at h
  · simp at h
  · assumption

/-- A step that can be taken can be taken later. -/
theorem Grows.step_eq_ok (h : t.Grows t') (hstep : t.step place name = .ok base) :
    t'.step place name = .ok base := by
  -- What a name leads to depends on the place being a directory, and on nothing else there.
  have hplace := get?_of_step hstep
  unfold step at hstep ⊢
  rw [hplace] at hstep
  rw [h.directory hplace]
  exact hstep

/-- So can a walk. -/
theorem Grows.foldlM_step (h : t.Grows t') (hfold : names.foldlM t.step place = .ok base) :
    names.foldlM t'.step place = .ok base := by
  induction names generalizing place with
  | nil => exact hfold
  | cons name names ih =>
    rw [List.foldlM_cons] at hfold ⊢
    obtain ⟨next, hstep, hrest⟩ := bind_eq_ok.mp hfold
    exact bind_eq_ok.mpr ⟨next, h.step_eq_ok hstep, ih hrest⟩

/-- A path leads to where it led before. -/
theorem Grows.placeOf_eq_ok (h : t.Grows t') (hplace : t.placeOf path = .ok place) :
    t'.placeOf path = .ok place := by
  unfold placeOf locate at hplace ⊢
  rw [h.working]
  exact h.foldlM_step hplace

/-- What is not two dots leads to the place itself or into it. -/
theorem prefix_of_step (hname : name ≠ "..") (h : t.step place name = .ok base) :
    place <+: base := by
  unfold step at h
  split at h
  · simp at h
  · simp at h
  · -- The name leads nowhere or one level down.
    rw [if_neg hname] at h
    split at h
    · exact Except.ok.inj h ▸ List.prefix_refl _
    · split at h
      · simp at h
      · exact Except.ok.inj h ▸ List.prefix_append _ _

/-- A walk that never turns back ends below its start. -/
theorem prefix_of_foldlM_step (hnames : ".." ∉ names) (h : names.foldlM t.step place = .ok base) :
    place <+: base := by
  induction names generalizing place with
  | nil => exact Except.ok.inj h ▸ List.prefix_refl _
  | cons name names ih =>
    rw [List.foldlM_cons] at h
    obtain ⟨next, hstep, hrest⟩ := bind_eq_ok.mp h
    obtain ⟨hname, hnames⟩ := not_or.mp (mt List.mem_cons.mpr hnames)
    exact (prefix_of_step (Ne.symm hname) hstep).trans (ih hnames hrest)

/-- A path that is followed from a directory leads where its names lead from there. -/
theorem placeOf_join_eq_ok_iff {directory : String} (hempty : directory.toList ≠ [])
    (hrooted : Path.rooted path = false) :
    t.placeOf (Path.join directory path) = .ok place ↔
      ∃ base, t.placeOf directory = .ok base
        ∧ (Path.names path).foldlM t.step base = .ok place := by
  unfold placeOf locate
  rw [Path.names_join hrooted, Path.rooted_join hempty hrooted, List.foldlM_append]
  exact bind_eq_ok

/-- A name other than the two dotted ones leads one level down. -/
theorem eq_append_of_step (hname : name ≠ "." ∧ name ≠ "..") (h : t.step place name = .ok base) :
    base = place ++ [name] := by
  unfold step at h
  rw [get?_of_step h, if_neg hname.1, if_neg hname.2] at h
  dsimp only at h
  split at h
  · simp at h
  · exact (Except.ok.inj h).symm

/-- A name that is followed from a directory leads into it. -/
theorem placeOf_join_name {directory : String} (hempty : directory.toList ≠ [])
    (hname : name ≠ "." ∧ name ≠ "..") (hsome : name.toList ≠ []) (hslash : '/' ∉ name.toList)
    (hbase : t.placeOf directory = .ok base)
    (hplace : t.placeOf (Path.join directory name) = .ok place) : place = base ++ [name] := by
  have hrooted := Path.rooted_of_not_mem hslash
  obtain ⟨base', hbase', hfold⟩ := (placeOf_join_eq_ok_iff hempty hrooted).mp hplace
  obtain rfl := Except.ok.inj (hbase.symm.trans hbase')
  rw [Path.names_of_not_mem hslash hsome, List.foldlM_cons] at hfold
  -- Without a slash there is one step from the directory.
  obtain ⟨next, hstep, hnext⟩ := bind_eq_ok.mp hfold
  obtain rfl := Except.ok.inj hnext
  exact eq_append_of_step hname hstep

/-! ### What is at the end of a path -/

/-- Something is found where the path leads, and a path that ends in a slash finds directories
only. -/
theorem find?_eq_ok_iff : t.find? path = .ok e ↔ Path.check path = .ok ()
    ∧ (∃ place, t.placeOf path = .ok place ∧ t.get? place = some e)
    ∧ (e ≠ .directory → Path.closed path = false) := by
  unfold find?
  rw [bind_eq_ok]
  refine ⟨?_, ?_⟩
  · -- What was found: the path is well formed and its place holds the entry.
    rintro ⟨⟨⟩, hcheck, h⟩
    obtain ⟨place, hplace, h⟩ := bind_eq_ok.mp h
    -- What is there decides whether the path may end in a slash.
    split at h
    · simp at h
    · next hget =>
      obtain rfl := Except.ok.inj h
      exact ⟨hcheck, ⟨place, hplace, hget⟩, by simp⟩
    · next bytes hget =>
      split at h
      · simp at h
      · next hclosed =>
        obtain rfl := Except.ok.inj h
        exact ⟨hcheck, ⟨place, hplace, hget⟩, fun _ => by simpa using hclosed⟩
  · rintro ⟨hcheck, ⟨place, hplace, hget⟩, hclosed⟩
    refine ⟨(), hcheck, bind_eq_ok.mpr ⟨place, hplace, ?_⟩⟩
    rw [hget]
    cases e with
    | directory => rfl
    | file bytes =>
      dsimp only
      rw [hclosed (by simp)]
      rfl

/-! ### One thing more -/

/-- One tree is another one with something put where a path leads. It takes the place of nothing
else, unless a file is written again. -/
structure Puts (t : FileTree) (path : String) (e : Entry) (t' : FileTree) : Prop where
  check : Path.check path = .ok ()
  exists_place : ∃ place, place ≠ [] ∧ t.placeOf path = .ok place
    ∧ (∀ old, t.get? place = some old → old ≠ .directory ∧ e ≠ .directory)
    ∧ t' = t.put place e

/-- The place for something new is where the path leads. -/
theorem placeOf_of_destination {parent : Location}
    (hdestination : t.destination path = .ok (parent, some name))
    (hstep : t.step parent name = .ok place) :
    Path.check path = .ok () ∧ t.placeOf path = .ok place ∧ place ≠ [] := by
  unfold destination at hdestination
  obtain ⟨⟨⟩, hcheck, h⟩ := bind_eq_ok.mp hdestination
  obtain ⟨parent', hparent, h⟩ := bind_eq_ok.mp h
  obtain ⟨-, -, h⟩ := bind_eq_ok.mp h
  obtain ⟨rfl, hlast⟩ := Prod.mk.inj (Except.ok.inj h)
  obtain ⟨hlast, hname⟩ := Option.filter_eq_some_iff.mp hlast
  -- The way to the parent and the last name are the whole path.
  have hnames : (Path.names path).dropLast ++ [name] = Path.names path :=
    List.dropLast_append_getLast? name hlast
  refine ⟨hcheck, ?_, ?_⟩
  · unfold locate at hparent
    unfold placeOf locate
    rw [← hnames, List.foldlM_append]
    refine bind_eq_ok.mpr ⟨parent', hparent, ?_⟩
    rw [List.foldlM_cons, hstep]
    rfl
  · rw [eq_append_of_step (by simpa using hname) hstep]
    simp

/-- Making a directory puts it in its place. -/
theorem puts_of_createDirectory (h : t.createDirectory path = .ok t') :
    t.Puts path .directory t' := by
  unfold createDirectory at h
  obtain ⟨⟨parent, last⟩, hdestination, h⟩ := bind_eq_ok.mp h
  cases last with
  | none => simp at h
  | some name =>
    -- The last name must be free.
    obtain ⟨place, hstep, h⟩ := bind_eq_ok.mp h
    obtain ⟨hcheck, hplace, hroot⟩ := placeOf_of_destination hdestination hstep
    split at h
    · simp at h
    · next hnone =>
      refine ⟨hcheck, place, hroot, hplace, ?_, (Except.ok.inj h).symm⟩
      intro old hold
      exact absurd (by simp [hold]) hnone

/-- Writing a file puts its bytes in their place. -/
theorem puts_of_write (h : t.write path bytes = .ok t') :
    t.Puts path (.file bytes) t' := by
  unfold write at h
  obtain ⟨⟨parent, last⟩, hdestination, h⟩ := bind_eq_ok.mp h
  cases last with
  | none => simp at h
  | some name =>
    dsimp only at h
    split at h
    · simp at h
    · next hclosed =>
      obtain ⟨place, hstep, h⟩ := bind_eq_ok.mp h
      obtain ⟨hcheck, hplace, hroot⟩ := placeOf_of_destination hdestination hstep
      split at h
      · simp at h
      · next hfile =>
        refine ⟨hcheck, place, hroot, hplace, ?_, (Except.ok.inj h).symm⟩
        -- There may be a file already, but not a directory.
        intro old hold
        refine ⟨?_, by simp⟩
        rintro rfl
        exact hfile hold

/-- **Putting something somewhere leaves the tree there.** -/
theorem Puts.grows (h : t.Puts path e t') : t.Grows t' := by
  obtain ⟨place, hroot, -, hkind, rfl⟩ := h.exists_place
  -- At the place itself only a file can have been there, and it is a file again.
  refine ⟨rfl, ?_, ?_⟩
  · intro other hplace
    rw [get?_put hroot]
    split
    · next heq => exact absurd rfl (hkind _ (heq ▸ hplace)).1
    · exact hplace
  · intro other bytes hplace
    rw [get?_put hroot]
    split
    · next heq =>
      cases e with
      | directory => exact absurd rfl (hkind _ (heq ▸ hplace)).2
      | file bytes' => exact ⟨bytes', rfl⟩
    · exact ⟨bytes, hplace⟩

/-- What is put at the end of a path is there, and nowhere else has anything changed. -/
theorem Puts.get?_eq (h : t.Puts path e t') (other : Location) :
    t'.get? other = if t'.placeOf path = .ok other then some e else t.get? other := by
  have hgrows := h.grows
  obtain ⟨place, hroot, hplace, -, rfl⟩ := h.exists_place
  rw [get?_put hroot, hgrows.placeOf_eq_ok hplace]
  simp only [Except.ok.injEq, eq_comm]

/-- What is put at the end of a path is found there. -/
theorem Puts.find?_eq (h : t.Puts path e t')
    (hclosed : e ≠ .directory → Path.closed path = false) : t'.find? path = .ok e := by
  obtain ⟨place, -, hplace, -⟩ := h.exists_place
  have hplace' := h.grows.placeOf_eq_ok hplace
  refine find?_eq_ok_iff.mpr ⟨h.check, ⟨_, hplace', ?_⟩, hclosed⟩
  rw [h.get?_eq, if_pos hplace']

/-! ### Several things more -/

/-- One tree is another one with several things put where paths lead, one after another. -/
inductive Filled : FileTree → List (String × Entry) → FileTree → Prop where
  | nil (t : FileTree) : Filled t [] t
  | cons {t t₁ t' : FileTree} {put : String × Entry} {puts : List (String × Entry)} :
      t.Puts put.1 put.2 t₁ → Filled t₁ puts t' → Filled t (put :: puts) t'

/-- Putting things only adds to the tree. -/
theorem Filled.grows (h : Filled t puts t') : t.Grows t' := by
  induction h with
  | nil t => exact .refl t
  | cons hput _ ih => exact hput.grows.trans ih

/-- Two series of things put one after the other are one series. -/
theorem Filled.append {puts' : List (String × Entry)} (h : Filled t puts t₁)
    (h' : Filled t₁ puts' t') : Filled t (puts ++ puts') t' := by
  induction h with
  | nil t => exact h'
  | cons hput _ ih => exact .cons hput (ih h')

/-- A path at whose end something was put goes on to lead there. -/
theorem Filled.exists_place (h : Filled t puts t') {put : String × Entry} (hput : put ∈ puts) :
    Path.check put.1 = .ok () ∧ ∃ place, t'.placeOf put.1 = .ok place := by
  induction h with
  | nil t => exact absurd hput List.not_mem_nil
  | cons hfirst hrest ih =>
    rcases List.mem_cons.mp hput with rfl | hput
    · obtain ⟨place, -, hplace, -⟩ := hfirst.exists_place
      exact ⟨hfirst.check, place, (hfirst.grows.trans hrest.grows).placeOf_eq_ok hplace⟩
    · exact ih hput

/-- **What has changed was put there**: the last thing put there is found. -/
theorem Filled.changed (h : Filled t puts t') (hchanged : t'.get? place ≠ t.get? place) :
    ∃ put ∈ puts, t'.placeOf put.1 = .ok place ∧ t'.get? place = some put.2 := by
  induction h with
  | nil t => exact absurd rfl hchanged
  | @cons t t₁ t' put puts hput hrest ih =>
    by_cases hlater : t'.get? place = t₁.get? place
    · -- Nothing else was put there later.
      rw [hlater, hput.get?_eq] at hchanged
      by_cases hplace : t₁.placeOf put.1 = .ok place
      · refine ⟨put, List.mem_cons_self, hrest.grows.placeOf_eq_ok hplace, ?_⟩
        rw [hlater, hput.get?_eq, if_pos hplace]
      · rw [if_neg hplace] at hchanged
        exact absurd rfl hchanged
    · obtain ⟨put, hmem, hplace, hget⟩ := ih hlater
      exact ⟨put, List.mem_cons_of_mem _ hmem, hplace, hget⟩

/-- **What was put somewhere is there** if nothing else was put at the same place. -/
theorem Filled.kept (h : Filled t puts t') {put : String × Entry} (hput : put ∈ puts)
    (hplace : t'.placeOf put.1 = .ok place)
    (halone : ∀ put' ∈ puts, t'.placeOf put'.1 = .ok place → put'.2 = put.2) :
    t'.get? place = some put.2 := by
  -- The induction is on what was put. The first thing stays, or something equal is put over it.
  induction h with
  | nil t => exact absurd hput List.not_mem_nil
  | @cons t t₁ t' first puts hfirst hrest ih =>
    obtain ⟨-, hrest_alone⟩ := List.forall_mem_cons.mp halone
    rcases List.mem_cons.mp hput with rfl | hput
    · by_cases hlater : t'.get? place = t₁.get? place
      · -- The path led to the same place when the first thing was put there.
        obtain ⟨place', -, hfirst_place, -⟩ := hfirst.exists_place
        have hsame := hfirst.grows.placeOf_eq_ok hfirst_place
        have heq := (hrest.grows.placeOf_eq_ok hsame).symm.trans hplace
        rw [hlater, hfirst.get?_eq, if_pos (hsame.trans heq)]
      · -- What was put there later is the same.
        obtain ⟨put', hmem, hplace', hget⟩ := hrest.changed hlater
        rw [hget, hrest_alone put' hmem hplace']
    · exact ih hput hplace hrest_alone

/-- A directory that has come up was made where there was nothing. -/
theorem Grows.new_directory (h : t.Grows t') (hget : t'.get? place = some .directory)
    (hchanged : t'.get? place ≠ t.get? place) : t.get? place = none := by
  cases hold : t.get? place with
  | none => rfl
  | some old =>
    cases old with
    | directory => exact absurd (hget.trans hold.symm) hchanged
    | file bytes =>
      obtain ⟨bytes', hfile⟩ := h.file hold
      exact absurd (hget.symm.trans hfile) (by simp)

end FileTree

end CompositeCrd
