import CompositeCrd.Proofs.Command.Session
import CompositeCrd.Proofs.Crd.Image
import CompositeCrd.Proofs.Host.FileTree

/-!
# Files of rendered definitions

Rendered into a directory, each custom resource definition becomes a file that is called after
it. The directory is made first, with what it lacks on the way to it (`run_createNested`),
and then the files are written one after another (`perform_forM_storeOne`).

So a definition is found in its file afterwards, unless another one was written over it, which
happens to the claim of a definition that is called what the claim is called
(`stored_definitions_kept`, `claim_written_over`). And what has changed is below the directory or
on the way to it, unless the name of a definition leads out of it (`changed_below_directory`,
`stored_beside_directory`).
-/

namespace CompositeCrd

open Session (Simulated)

variable {s : Session} {t t₁ t' : FileTree} {format : OutputFormat} {crd : Crd} {crds : List Crd}
  {verbose : Bool} {request : RenderRequest} {directory path : String} {words : List String}

/-! ### Making the directory -/

namespace Session

/-- A change that succeeds changes the tree and nothing else. -/
theorem changing_ok {change : FileTree → Except FileError FileTree} (h : change s.tree = .ok t) :
    changing change s = (.ok (), { s with tree := t }) := by
  unfold changing
  rw [h]

/-- One that fails changes nothing. -/
theorem changing_error {change : FileTree → Except FileError FileTree} {e : FileError}
    (h : change s.tree = .error e) : changing change s = (.error e, s) := by
  unfold changing
  rw [h]

/-- The effect of making a directory on the tree of the session. -/
theorem run_createDirectory (path : String) :
    (Host.createDirectory path : Simulated (Except FileError Unit)).run s
      = changing (·.createDirectory path) s := rfl

/-- Whether a directory is there is read off the tree. -/
theorem run_holdsDirectory (path : String) :
    (Host.holdsDirectory path : Simulated Bool).run s
      = (decide (s.tree.find? path = .ok .directory), s) := by
  unfold Host.holdsDirectory
  rw [StateT.run_bind, run_find?]
  rcases s.tree.find? path with _ | _ | _ <;> rfl

/-- An error passes if the directory is there. -/
theorem run_settle_error (path : String) (e : FileError) :
    (Host.createNested.settle path (.error e) : Simulated (Except FileError Unit)).run s
      = (if s.tree.find? path = .ok .directory then .ok () else .error e, s) := by
  unfold Host.createNested.settle
  dsimp only
  rw [StateT.run_bind, run_holdsDirectory]
  -- The error passes if the directory is there after all.
  by_cases h : s.tree.find? path = .ok .directory
  · rw [decide_eq_true h, if_pos h]
    rfl
  · rw [decide_eq_false h, if_neg h]
    rfl

/-- Makes one directory, which may be there already. -/
def makeDirectory (path : String) : Simulated (Except FileError Unit) := do
  Host.createNested.settle path (← Host.createDirectory path)

/-- At most this directory is made, and if nothing fails it is there. -/
theorem run_makeDirectory (s : Session) (path : String) : ∃ r, ∃ made : List String, ∃ t',
    (makeDirectory path).run s = (r, { s with tree := t' }) ∧ made ⊆ [path]
      ∧ s.tree.Filled (made.map fun path => (path, .directory)) t'
      ∧ (r = .ok () → t'.find? path = .ok .directory) := by
  unfold makeDirectory
  rw [StateT.run_bind, run_createDirectory]
  cases hmake : s.tree.createDirectory path with
  | ok t' =>
    have hput := FileTree.puts_of_createDirectory hmake
    rw [changing_ok hmake]
    exact ⟨.ok (), [path], t', rfl, List.Subset.refl _, .cons hput (.nil _),
      fun _ => hput.find?_eq (by simp)⟩
  | error e =>
    rw [changing_error hmake]
    refine ⟨_, [], s.tree, run_settle_error path e, by simp, .nil _, fun h => ?_⟩
    -- The error has passed, so there was a directory already.
    by_contra hthere
    rw [if_neg hthere] at h
    exact absurd h (by simp)

/-- If there is nothing on the way to a directory, what it lacks is made before it. -/
theorem run_createNested_cons (path : String) (paths : List String) :
    (Host.createNested (path :: paths) : Simulated (Except FileError Unit)).run s
      = if s.tree.createDirectory path = .error .notFound then
          match (Host.createNested paths : Simulated (Except FileError Unit)).run s with
          | (.ok (), s') => (makeDirectory path).run s'
          | (.error e, s') => (.error e, s')
        else (makeDirectory path).run s := by
  unfold makeDirectory
  rw [Host.createNested, StateT.run_bind, StateT.run_bind, run_createDirectory]
  -- Only a directory that is missing further up leads to another try.
  cases hmake : s.tree.createDirectory path with
  | ok t' =>
    rw [changing_ok hmake, if_neg (by simp)]
    rfl
  | error e =>
    rw [changing_error hmake]
    change StateT.run (if e = .notFound then _ else _) s = _
    by_cases h : e = .notFound
    · rw [if_pos h, if_pos (congrArg Except.error h), StateT.run_bind]
      rcases (Host.createNested paths : Simulated (Except FileError Unit)).run s with ⟨_ | _, _⟩
      · rfl
      · rfl
    · rw [if_neg h, if_neg (mt Except.error.inj h)]
      rfl

/-- **A directory is made with those on the way to it**, and if nothing fails it is there. -/
theorem run_createNested (s : Session) (paths : List String) : ∃ r, ∃ made : List String, ∃ t',
    (Host.createNested paths : Simulated (Except FileError Unit)).run s = (r, { s with tree := t' })
      ∧ made ⊆ paths ∧ s.tree.Filled (made.map fun path => (path, .directory)) t'
      ∧ (r = .ok () → ∀ path ∈ paths.head?, t'.find? path = .ok .directory) := by
  induction paths generalizing s with
  | nil => exact ⟨.ok (), [], s.tree, rfl, by simp, .nil _, by simp⟩
  | cons path paths ih =>
    rw [run_createNested_cons]
    split
    · obtain ⟨r, made, t₁, hrun, hmade, hfilled, -⟩ := ih s
      rw [hrun]
      cases r with
      | error e =>
        exact ⟨.error e, made, t₁, rfl, List.subset_cons_of_subset _ hmade, hfilled, by simp⟩
      | ok a =>
        -- The directory itself comes last.
        obtain ⟨r, made', t', hlast, hmade', hfilled', hthere⟩ :=
          run_makeDirectory { s with tree := t₁ } path
        refine ⟨r, made ++ made', t', hlast, ?_, ?_, ?_⟩
        · refine List.append_subset.mpr ⟨List.subset_cons_of_subset _ hmade, ?_⟩
          exact List.Subset.trans hmade' (by simp)
        · rw [List.map_append]
          exact hfilled.append hfilled'
        · simpa using hthere
    · obtain ⟨r, made, t', hrun, hmade, hfilled, hthere⟩ := run_makeDirectory s path
      exact ⟨r, made, t', hrun, List.Subset.trans hmade (by simp), hfilled, by simpa using hthere⟩

end Session

/-! ### Writing the files -/

namespace Crd

/-- The path of a stored file does not end in a slash. -/
theorem closed_file : Path.closed (crd.file directory format) = false := by
  have happend (a b : String) (hb : b.toList ≠ []) : Path.closed (a ++ b) = Path.closed b := by
    unfold Path.closed
    rw [String.toList_append, List.getLast?_append_of_ne_nil _ hb]
  -- The path ends in the extension, whatever the name before it looks like.
  have hextension : format.extension.toList ≠ [] ∧ Path.closed format.extension = false := by
    cases format <;> decide
  have hname : (crd.metadata.name ++ "." ++ format.extension).toList ≠ [] := by simp
  unfold Crd.file Path.join
  split
  · rw [happend _ _ hextension.1, hextension.2]
  · split
    · rw [happend _ _ hname, happend _ _ hextension.1, hextension.2]
    · rw [happend _ _ hname, happend _ _ hextension.1, hextension.2]

/-- A file that is called after a name without slashes is called by one name. -/
theorem plain_fileName {name : String} (hslash : '/' ∉ name.toList) (format : OutputFormat) :
    (name ++ "." ++ format.extension ≠ "." ∧ name ++ "." ++ format.extension ≠ "..")
      ∧ (name ++ "." ++ format.extension).toList ≠ []
      ∧ '/' ∉ (name ++ "." ++ format.extension).toList := by
  have hextension : '/' ∉ format.extension.toList := by cases format <;> decide
  -- With its extension a name is too long to be one of the dots.
  have hlength : 2 < (name ++ "." ++ format.extension).length := by
    have hlong : 2 < format.extension.length := by cases format <;> decide
    rw [String.length_append]
    omega
  refine ⟨⟨?_, ?_⟩, by simp, ?_⟩
  · intro h
    rw [h] at hlength
    exact absurd hlength (by decide)
  · intro h
    rw [h] at hlength
    exact absurd hlength (by decide)
  · simp [hslash, hextension]

/-- What is put into a directory for a definition. -/
def stored (directory : String) (format : OutputFormat) (crd : Crd) : String × Entry :=
  (crd.file directory format, .file (Utf8.encode ((crd.render format).getD "")))

end Crd

/-- Writes the file of one definition. -/
def storeOne (directory : String) (format : OutputFormat) (crd : Crd) : Running Simulated Unit := do
  let path := crd.file directory format
  match crd.render format with
  | none => throw .unwritten
  | some text => asking (.unwritable path) (Host.write path text)
  printLine ("Wrote " ++ path)

namespace Session

/-- Storing one resource definition either fails and leaves the session, or puts its text in its
file. -/
theorem perform_storeOne (s : Session) (directory : String) (format : OutputFormat) (crd : Crd) :
    ∃ r s', s.perform (storeOne directory format crd) = (r, s')
      ∧ ((∃ e, r = .error e) ∧ s' = s
        ∨ r = .ok () ∧ s.tree.Puts (crd.stored directory format).1 (crd.stored directory format).2
          s'.tree) := by
  obtain ⟨text, htext⟩ := crd.exists_render format
  have hrun : (Host.write (crd.file directory format) text :
      Simulated (Except FileError Unit)).run s
      = changing (·.write (crd.file directory format) (Utf8.encode text)) s := rfl
  -- There is a text always, so that only the host can fail.
  unfold storeOne
  rw [htext]
  dsimp only
  rw [perform_bind, perform_asking, hrun]
  cases hwrite : s.tree.write (crd.file directory format) (Utf8.encode text) with
  | error e =>
    rw [changing_error hwrite]
    exact ⟨_, s, rfl, .inl ⟨⟨_, rfl⟩, rfl⟩⟩
  | ok t₁ =>
    rw [changing_ok hwrite]
    refine ⟨.ok (), _, rfl, .inr ⟨rfl, ?_⟩⟩
    rw [Crd.stored, htext]
    exact FileTree.puts_of_write hwrite

/-- **Files are written in order**, up to the first that cannot be written. -/
theorem perform_forM_storeOne (s : Session) (directory : String) (format : OutputFormat)
    (crds : List Crd) : ∃ r written left s',
      s.perform (crds.forM (storeOne directory format)) = (r, s') ∧ crds = written ++ left
        ∧ s.tree.Filled (written.map (Crd.stored directory format)) s'.tree
        ∧ (r = .ok () → left = []) := by
  induction crds generalizing s with
  | nil => exact ⟨.ok (), [], [], s, rfl, rfl, .nil _, fun _ => rfl⟩
  | cons crd crds ih =>
    rw [List.forM_eq_forM, List.forM_cons, perform_bind]
    obtain ⟨r, s₁, hfirst, ⟨⟨e, rfl⟩, rfl⟩ | ⟨rfl, hput⟩⟩ :=
      s.perform_storeOne directory format crd
    · -- After a failure nothing more is tried.
      rw [hfirst]
      exact ⟨.error e, [], crd :: crds, s₁, rfl, rfl, .nil _, by simp⟩
    · rw [hfirst]
      obtain ⟨r, written, left, s', hrest, rfl, hfilled, hleft⟩ := ih s₁
      exact ⟨r, crd :: written, left, s', hrest, rfl, .cons hput hfilled, hleft⟩

end Session

/-- One tree is another one with a directory that was made, if it was not there, and then the
files of definitions that were written into it. -/
def FileTree.Stores (t : FileTree) (directory : String) (format : OutputFormat)
    (written : List Crd) (t' : FileTree) : Prop :=
  ∃ made : List String, ∃ t₁, made ⊆ directory :: Path.above directory
    ∧ t.Filled (made.map fun path => (path, .directory)) t₁
    ∧ (written ≠ [] → t₁.find? directory = .ok .directory)
    ∧ t₁.Filled (written.map (Crd.stored directory format)) t'

namespace Session

/-- **Definitions are stored in order**, and all of them if nothing fails. -/
theorem perform_store (s : Session) (directory : String) (format : OutputFormat)
    (crds : List Crd) : ∃ r written left s',
      s.perform (store directory format crds) = (r, s') ∧ crds = written ++ left
        ∧ s.tree.Stores directory format written s'.tree ∧ (r = .ok () → left = []) := by
  -- First the directory is made, with those above it.
  obtain ⟨r, made, t₁, hmake, hmade, hfilled, hthere⟩ :=
    run_createNested s (directory :: Path.above directory)
  have hrun : (Host.createDirectories directory : Simulated (Except FileError Unit)).run s
      = (r, { s with tree := t₁ }) := hmake
  unfold store
  rw [perform_bind, perform_asking, hrun]
  cases r with
  | error e =>
    exact ⟨.error (.directory directory e), [], crds, { s with tree := t₁ }, rfl, rfl,
      ⟨made, t₁, hmade, hfilled, by simp, .nil _⟩, by simp⟩
  -- Then the definitions are stored one by one, up to the first that fails.
  | ok a =>
    obtain ⟨r, written, left, s', hrest, hcrds, hstored, hleft⟩ :=
      perform_forM_storeOne { s with tree := t₁ } directory format crds
    exact ⟨r, written, left, s', hrest, hcrds,
      ⟨made, t₁, hmade, hfilled, fun _ => hthere rfl directory rfl, hstored⟩, hleft⟩

/-- With an output directory, delivering is storing. -/
theorem perform_deliver_some : s.perform (deliver (some directory) format crds)
    = match s.perform (store directory format crds) with
      | (.ok (), s') => (.ok .done, s')
      | (.error e, s') => (.error e, s') := by
  unfold deliver
  rw [perform_bind]
  rcases s.perform (store directory format crds) with ⟨_ | _, _⟩ <;> rfl

section Rendering

variable (hwords : Invocation.ofWords words = .ok { command := .render request, verbose })
  (hdirectory : request.output = some directory)
  (hrendered : request.rendered s.tree = .ok (format, crds))

include hwords hdirectory hrendered

/-- A rendering that is to be stored stores the definitions. -/
theorem carryOut_store_eq : s.carryOut words
    = match (s.announcing verbose crds).perform (store directory format crds) with
      | (.ok (), s') => (.done, s')
      | (.error e, s') => (.failed, s'.reporting ("error: " ++ e.message ++ "\n")) := by
  rw [carryOut_eq hwords, Invocation.run, perform_runRender, hrendered]
  dsimp only
  rw [hdirectory, perform_deliver_some]
  rcases (s.announcing verbose crds).perform (store directory format crds) with ⟨_ | _, _⟩ <;> rfl

/-- What a rendering into a directory leaves. -/
theorem carryOut_store : ∃ written left, crds = written ++ left
    ∧ s.tree.Stores directory format written (s.carryOut words).2.tree
    ∧ ((s.carryOut words).1 = .done → left = []) := by
  obtain ⟨r, written, left, s', hstore, hcrds, hstores, hleft⟩ :=
    (s.announcing verbose crds).perform_store directory format crds
  rw [announcing_tree] at hstores
  rw [carryOut_store_eq hwords hdirectory hrendered, hstore]
  cases r with
  | error e => exact ⟨written, left, hcrds, hstores, by simp⟩
  | ok a => exact ⟨written, left, hcrds, hstores, fun _ => hleft rfl⟩

end Rendering

end Session

/-! ### What is found afterwards -/

namespace FileTree

/-- The file of a definition has a place. -/
theorem Stores.exists_place (h : t.Stores directory format crds t') (hcrd : crd ∈ crds) :
    Path.check (crd.file directory format) = .ok ()
      ∧ ∃ place, t'.placeOf (crd.file directory format) = .ok place := by
  obtain ⟨made, t₁, -, -, -, hfiles⟩ := h
  have hput := hfiles.exists_place (List.mem_map_of_mem (f := Crd.stored directory format) hcrd)
  rwa [Crd.stored] at hput

/-- **A definition is found in its file** if no other one was written to the same place. -/
theorem Stores.find?_file (h : t.Stores directory format crds t') (hcrd : crd ∈ crds)
    (halone : ∀ crd' ∈ crds,
      t'.placeOf (crd'.file directory format) = t'.placeOf (crd.file directory format) →
        crd' = crd) :
    ∃ text, crd.render format = some text
      ∧ t'.find? (crd.file directory format) = .ok (.file (Utf8.encode text)) := by
  obtain ⟨hcheck, place, hplace⟩ := h.exists_place hcrd
  obtain ⟨made, t₁, -, -, -, hfiles⟩ := h
  obtain ⟨text, htext⟩ := crd.exists_render format
  have hput := List.mem_map_of_mem (f := Crd.stored directory format) hcrd
  -- The directories were all made before, so only the files count.
  have hkept : t'.get? place = some (crd.stored directory format).2 := by
    refine hfiles.kept hput hplace fun put hmem hsame => ?_
    obtain ⟨crd', hcrd', rfl⟩ := List.mem_map.mp hmem
    rw [halone crd' hcrd' (hsame.trans hplace.symm)]
  rw [Crd.stored, htext, Option.getD_some] at hkept
  exact ⟨text, htext, find?_eq_ok_iff.mpr ⟨hcheck, ⟨place, hplace, hkept⟩,
    fun _ => Crd.closed_file⟩⟩

/-- What has changed is a directory that was made, or a file that was written. -/
theorem Stores.changed {place : Location} (h : t.Stores directory format crds t')
    (hchanged : t'.get? place ≠ t.get? place) :
    (t.get? place = none ∧ t'.get? place = some .directory
        ∧ ∃ path ∈ directory :: Path.above directory, t'.placeOf path = .ok place)
      ∨ ∃ crd ∈ crds, t'.placeOf (crd.file directory format) = .ok place
        ∧ ∃ bytes, t'.get? place = some (.file bytes) := by
  obtain ⟨made, t₁, hmade, hdirectories, -, hfiles⟩ := h
  have hfilled := hdirectories.append hfiles
  obtain ⟨put, hput, hplace, hget⟩ := hfilled.changed hchanged
  -- What was put there is one of the directories, or a file.
  rcases List.mem_append.mp hput with hput | hput
  · obtain ⟨path, hpath, rfl⟩ := List.mem_map.mp hput
    exact .inl ⟨hfilled.grows.new_directory hget hchanged, hget, path, hmade hpath, hplace⟩
  · obtain ⟨crd, hcrd, rfl⟩ := List.mem_map.mp hput
    exact .inr ⟨crd, hcrd, hplace, _, hget⟩

/-- The directory is there when a file has been written into it. -/
theorem Stores.find?_directory (h : t.Stores directory format crds t') (hcrd : crd ∈ crds) :
    directory.toList ≠ [] ∧ ∃ base, t'.placeOf directory = .ok base
      ∧ t'.get? base = some .directory := by
  obtain ⟨made, t₁, -, -, hthere, hfiles⟩ := h
  obtain ⟨hcheck, ⟨base, hbase, hget⟩, -⟩ :=
    find?_eq_ok_iff.mp (hthere (List.ne_nil_of_mem hcrd))
  refine ⟨?_, base, hfiles.grows.placeOf_eq_ok hbase, hfiles.grows.directory hget⟩
  intro hempty
  obtain rfl : directory = "" := String.toList_inj.mp hempty
  exact absurd hcheck (by decide)

/-- **A file is below the directory** if its name goes down only. -/
theorem Stores.below {place : Location} {bytes : List UInt8}
    (h : t.Stores directory format crds t') (hcrd : crd ∈ crds)
    (hname : Path.Descends (crd.metadata.name ++ "." ++ format.extension))
    (hplace : t'.placeOf (crd.file directory format) = .ok place)
    (hfile : t'.get? place = some (.file bytes)) :
    ∃ base, t'.placeOf directory = .ok base ∧ base <+: place ∧ base ≠ place := by
  obtain ⟨hempty, base, hbase, hdirectory⟩ := h.find?_directory hcrd
  refine ⟨base, hbase, ?_, ?_⟩
  · obtain ⟨base', hbase', hfold⟩ := (placeOf_join_eq_ok_iff hempty hname.1).mp hplace
    obtain rfl := Except.ok.inj (hbase.symm.trans hbase')
    exact prefix_of_foldlM_step hname.2 hfold
  · -- One is a directory, and the other is a file.
    rintro rfl
    exact absurd (hdirectory.symm.trans hfile) (by simp)

/-- Names without slashes that lead to the same file are the same. -/
theorem Stores.name_eq {crd' : Crd} (h : t.Stores directory format crds t') (hcrd : crd ∈ crds)
    (hslash : '/' ∉ crd.metadata.name.toList) (hslash' : '/' ∉ crd'.metadata.name.toList)
    (hsame : t'.placeOf (crd'.file directory format) = t'.placeOf (crd.file directory format)) :
    crd'.metadata.name = crd.metadata.name := by
  obtain ⟨hempty, base, hbase, -⟩ := h.find?_directory hcrd
  obtain ⟨-, place, hplace⟩ := h.exists_place hcrd
  -- Both files are in the directory itself.
  have hfile (name : String) (hname : '/' ∉ name.toList)
      (hplace : t'.placeOf (Path.join directory (name ++ "." ++ format.extension)) = .ok place) :
      place = base ++ [name ++ "." ++ format.extension] := by
    obtain ⟨hdots, hsome, hslash⟩ := Crd.plain_fileName hname format
    exact placeOf_join_name hempty hdots hsome hslash hbase hplace
  have heq := (hfile _ hslash' (hsame.trans hplace)).symm.trans (hfile _ hslash hplace)
  have hnames := List.singleton_inj.mp (List.append_cancel_left heq)
  rw [String.append_assoc, String.append_assoc] at hnames
  exact String.append_left_inj _ |>.mp hnames

end FileTree

/-! ### Definitions that are rendered together -/

/-- What is rendered was generated from the definition that was read. -/
theorem rendered_eq_ok {request : RenderRequest}
    (h : request.rendered t = .ok (format, crds)) :
    ∃ d, t.definitionIn request.input = .ok d
      ∧ ∀ crd ∈ crds, ∃ variant, d.generate variant = .ok crd := by
  unfold RenderRequest.rendered at h
  obtain ⟨config, -, h⟩ := bind_eq_ok.mp h
  obtain ⟨d, hd, h⟩ := bind_eq_ok.mp h
  obtain ⟨crds', hcrds, h⟩ := bind_eq_ok.mp h
  obtain ⟨-, rfl⟩ := Prod.mk.inj (Except.ok.inj h)
  refine ⟨d, hd, fun crd hcrd => ?_⟩
  -- Unless the definition was refused, each is generated for one of the variants.
  unfold RenderRequest.crds at hcrds
  split at hcrds
  · obtain ⟨variant, -, hvariant⟩ := exists_of_forall₂ (mapM_eq_ok_iff.mp hcrds) hcrd
    exact ⟨variant, mapError_eq_ok.mp hvariant⟩
  · exact absurd hcrds (by simp)

/-- Two resources of a definition share a name only if it is called what its claim is called. -/
theorem claim_name_of_generate {d : Definition} {variant variant' : Variant} {crd' : Crd}
    (h : d.generate variant = .ok crd) (h' : d.generate variant' = .ok crd') (hne : crd ≠ crd')
    (hname : crd'.metadata.name = crd.metadata.name) : ∃ names, d.spec.claimNames = some names
      ∧ d.metadata.name = names.plural ++ "." ++ d.spec.group := by
  obtain ⟨names, hnames, heq, -⟩ := (mirrors_of_generate h).names
  obtain ⟨names', hnames', heq', -⟩ := (mirrors_of_generate h').names
  -- One variant gives one resource, so there are one of each.
  cases variant <;> cases variant'
  · exact absurd (Except.ok.inj (h.symm.trans h')) hne
  · exact ⟨names', hnames', heq.symm.trans (hname.symm.trans heq')⟩
  · exact ⟨names, hnames, heq'.symm.trans (hname.trans heq)⟩
  · exact absurd (Except.ok.inj (h.symm.trans h')) hne

/-! ### What a run leaves -/

/-- The words of a command to render a manifest as JSON into a directory. -/
def storing : List String :=
  ["render", "--input", "xrd.yaml", "--format", "json", "--output", "out"]

/-- What the words ask for. -/
def storingRequest : RenderRequest where
  input := "xrd.yaml"
  format := some .json
  output := some "out"

theorem storing_read : Invocation.ofWords storing
    = .ok { command := .render storingRequest, verbose := false } := rfl

/-- Carrying out that request is storing what was generated. -/
theorem carryOut_storing {text : String} {d : Definition}
    (hd : Yaml.Reader.ofText? Definition.form text = some d)
    (hcrds : storingRequest.crds {} d = .ok crds)
    (hstore : ((Session.manifest text).perform (store "out" .json crds)).1.toBool = true) :
    storingRequest.rendered (Session.manifest text).tree = .ok (.json, crds)
      ∧ (Session.manifest text).carryOut storing
        = (.done, ((Session.manifest text).perform (store "out" .json crds)).2) := by
  have hrendered : storingRequest.rendered (Session.manifest text).tree = .ok (.json, crds) :=
    rendered_of_crds rfl (definitionIn_manifest hd) hcrds
  refine ⟨hrendered, ?_⟩
  rw [Session.carryOut_store_eq storing_read rfl hrendered]
  change (match (Session.manifest text).perform (store "out" .json crds) with
    | (.ok (), s') => (Outcome.done, s')
    | (.error e, s') => (.failed, s'.reporting ("error: " ++ e.message ++ "\n"))) = _
  -- Storing has succeeded, so the command is done.
  rcases h : (Session.manifest text).perform (store "out" .json crds) with ⟨_ | _, s'⟩
  · exact absurd (h ▸ hstore) (by simp [Except.toBool])
  · rfl

theorem exists_sizes_crds : ∃ composite claim,
    sizes.generate .composite = .ok composite ∧ sizes.generate .claim = .ok claim
      ∧ storingRequest.crds {} sizes = .ok [composite, claim]
      ∧ composite.metadata.name = "big.org" ∧ claim.metadata.name = "sizes.org"
      ∧ ((Session.manifest sizesManifest).perform
          (store "out" .json [composite, claim])).1.toBool = true
      ∧ ((Session.manifest sizesManifest).perform
          (store "out" .json [composite, claim])).2.tree.get? ["out", "sizes.org.json"]
        ∉ [none, some .directory] :=
  ⟨_, _, rfl, rfl, rfl, rfl, rfl, by decide +kernel, by decide +kernel⟩

/-- **Rendered definitions are kept.** After a successful run every definition is found in its
file, unless another one was written to the same place. If the names lead nowhere else, two of
them share a file only if the definition is called what its claim is called. -/
theorem stored_definitions_kept
    (hwords : Invocation.ofWords words = .ok { command := .render request, verbose })
    (hdirectory : request.output = some directory) (hdone : (s.carryOut words).1 = .done) :
    ∃ d format crds, s.tree.definitionIn request.input = .ok d
      ∧ request.rendered s.tree = .ok (format, crds)
      ∧ (∀ crd ∈ crds,
          (∀ crd' ∈ crds, (s.carryOut words).2.tree.placeOf (crd'.file directory format)
            = (s.carryOut words).2.tree.placeOf (crd.file directory format) → crd' = crd) →
          ∃ text, crd.render format = some text
            ∧ (s.carryOut words).2.tree.find? (crd.file directory format)
              = .ok (.file (Utf8.encode text)))
      ∧ ∀ crd ∈ crds, ∀ crd' ∈ crds, crd ≠ crd' → '/' ∉ crd.metadata.name.toList →
          '/' ∉ crd'.metadata.name.toList →
          (s.carryOut words).2.tree.placeOf (crd'.file directory format)
            = (s.carryOut words).2.tree.placeOf (crd.file directory format) →
          ∃ names, d.spec.claimNames = some names
            ∧ d.metadata.name = names.plural ++ "." ++ d.spec.group := by
  -- A command that is done has rendered its request.
  cases hrendered : request.rendered s.tree with
  | error e =>
    rw [Session.carryOut_render_error hwords hrendered] at hdone
    exact absurd hdone (by simp)
  | ok r =>
    obtain ⟨format, crds⟩ := r
    obtain ⟨d, hd, hgenerate⟩ := rendered_eq_ok hrendered
    obtain ⟨written, left, hcrds, hstores, hleft⟩ :=
      Session.carryOut_store hwords hdirectory hrendered
    -- All were written.
    obtain rfl : crds = written := by rw [hcrds, hleft hdone, List.append_nil]
    refine ⟨d, format, crds, hd, rfl, fun crd hcrd => hstores.find?_file hcrd, ?_⟩
    intro crd hcrd crd' hcrd' hne hslash hslash' hsame
    -- Two different definitions with one file are the two variants of one resource.
    obtain ⟨variant, h⟩ := hgenerate crd hcrd
    obtain ⟨variant', h'⟩ := hgenerate crd' hcrd'
    exact claim_name_of_generate h h' hne (hstores.name_eq hcrd hslash hslash' hsame)

/-- Two resource definitions with different names are both found in the directory. -/
theorem sizesManifest_stored : ∃ composite claim text text',
    sizes.generate .composite = .ok composite ∧ composite.render .json = some text
      ∧ ((Session.manifest sizesManifest).carryOut storing).2.tree.find? "out/big.org.json"
        = .ok (.file (Utf8.encode text))
      ∧ sizes.generate .claim = .ok claim ∧ claim.render .json = some text'
      ∧ ((Session.manifest sizesManifest).carryOut storing).2.tree.find? "out/sizes.org.json"
        = .ok (.file (Utf8.encode text')) := by
  obtain ⟨composite, claim, hcomposite, hclaim, hcrds, hname, hname', hstore, -⟩ :=
    exists_sizes_crds
  obtain ⟨hrendered, hrun⟩ := carryOut_storing sizesManifest_read hcrds hstore
  obtain ⟨d, format, crds, hd, hsame, hkept, hclash⟩ :=
    stored_definitions_kept (s := Session.manifest sizesManifest) storing_read rfl (by rw [hrun])
  obtain rfl : sizes = d := Except.ok.inj ((definitionIn_manifest sizesManifest_read).symm.trans hd)
  obtain ⟨rfl, rfl⟩ := Prod.mk.inj (Except.ok.inj (hrendered.symm.trans hsame))
  -- The claim is not called what the definition is called, so there are two files.
  have hnames : ¬∃ names, sizes.spec.claimNames = some names
      ∧ sizes.metadata.name = names.plural ++ "." ++ sizes.spec.group := by
    rintro ⟨names, hnames, heq⟩
    obtain rfl := Option.some.inj hnames
    exact absurd heq (by decide)
  -- Their names lead straight into the directory.
  have hslash : ∀ crd ∈ [composite, claim], '/' ∉ crd.metadata.name.toList := by
    simp [hname, hname']
  have hfile (crd : Crd) (hcrd : crd ∈ [composite, claim]) := hkept crd hcrd fun crd' hcrd' h => by
    by_contra hne
    exact hnames (hclash crd hcrd crd' hcrd' (Ne.symm hne) (hslash crd hcrd) (hslash crd' hcrd') h)
  obtain ⟨text, htext, hfound⟩ := hfile composite (by simp)
  obtain ⟨text', htext', hfound'⟩ := hfile claim (by simp)
  unfold Crd.file at hfound hfound'
  rw [hname] at hfound
  rw [hname'] at hfound'
  exact ⟨composite, claim, text, text', hcomposite, htext, hfound, hclaim, htext', hfound'⟩

/-- The manifest of a definition that is called what its claim is called. -/
def sharedManifest : String :=
  "metadata:\n  name: sizes.org\nspec:\n  group: org\n  names:\n    kind: Big\n    plural: bigs\n"
    ++ "  claimNames:\n    kind: Size\n    plural: sizes\n"

/-- The definition in that manifest. -/
def shared : Definition :=
  (Definition.new "sizes.org" "org" { kind := "Big", plural := "bigs" }).withClaimNames
    { kind := "Size", plural := "sizes" }

/-- The claim of such a definition is written over the composite resource: the run succeeds, but
there are not two files. -/
theorem claim_written_over : ((Session.manifest sharedManifest).carryOut storing).1 = .done
    ∧ ∃ crds, storingRequest.rendered (Session.manifest sharedManifest).tree = .ok (.json, crds)
      ∧ ¬∀ crd ∈ crds, ∃ text, crd.render .json = some text
        ∧ ((Session.manifest sharedManifest).carryOut storing).2.tree.find?
            (crd.file "out" .json) = .ok (.file (Utf8.encode text)) := by
  -- Both variants are generated, with one file and two kinds, and storing them succeeds.
  have hread : Yaml.Reader.ofText? Definition.form sharedManifest = some shared := by
    decide +kernel
  obtain ⟨composite, claim, hcomposite, hclaim, hcrds, hfile, hkinds, hdepth, hdepth', hstore⟩ :
      ∃ composite claim, shared.generate .composite = .ok composite
        ∧ shared.generate .claim = .ok claim
        ∧ storingRequest.crds {} shared = .ok [composite, claim]
        ∧ composite.file "out" .json = claim.file "out" .json
        ∧ composite.spec.names.kind ≠ claim.spec.names.kind
        ∧ (∀ v, Crd.form.encode composite = some v → v.nesting ≤ Json.maxDepth)
        ∧ (∀ v, Crd.form.encode claim = some v → v.nesting ≤ Json.maxDepth)
        ∧ ((Session.manifest sharedManifest).perform
            (store "out" .json [composite, claim])).1.toBool = true := by
    refine ⟨_, _, rfl, rfl, rfl, rfl, by decide, ?_, ?_, by decide +kernel⟩
    · intro v hv
      obtain rfl := Option.some.inj hv
      decide +kernel
    · intro v hv
      obtain rfl := Option.some.inj hv
      decide +kernel
  obtain ⟨hrendered, hrun⟩ := carryOut_storing hread hcrds hstore
  refine ⟨by rw [hrun], _, hrendered, fun hkept => ?_⟩
  obtain ⟨text, htext, hfound⟩ := hkept composite (by simp)
  obtain ⟨text', htext', hfound'⟩ := hkept claim (by simp)
  -- One file cannot hold both.
  rw [hfile, hfound'] at hfound
  have hbytes : Utf8.encode text' = Utf8.encode text := Entry.file.inj (Except.ok.inj hfound)
  have hsame : text' = text := by
    have hdecode := congrArg Utf8.decode? hbytes
    rw [Utf8.decode?_encode, Utf8.decode?_encode] at hdecode
    exact Option.some.inj hdecode
  subst hsame
  -- Equal texts would be read back as equal definitions.
  have hequal : composite.echo = claim.echo :=
    (Crd.Arises.generated hcomposite).regular.echo_eq_of_render
      (Crd.Arises.generated hclaim).regular hdepth hdepth' (htext.trans htext'.symm)
  exact hkinds (congrArg (·.spec.names.kind) hequal)

/-- **Nothing else is changed.** Whether a run succeeds or not, what it has changed are
directories that were made on the way to the given one, where there was nothing, and files of
rendered definitions; and those are below the directory if the name of the definition goes down
only. -/
theorem changed_below_directory
    (hwords : Invocation.ofWords words = .ok { command := .render request, verbose })
    (hdirectory : request.output = some directory) {place : Location}
    (hchanged : (s.carryOut words).2.tree.get? place ≠ s.tree.get? place) :
    (s.tree.get? place = none ∧ (s.carryOut words).2.tree.get? place = some .directory
        ∧ ∃ path ∈ directory :: Path.above directory,
          (s.carryOut words).2.tree.placeOf path = .ok place)
      ∨ ∃ format crds crd, request.rendered s.tree = .ok (format, crds) ∧ crd ∈ crds
        ∧ (s.carryOut words).2.tree.placeOf (crd.file directory format) = .ok place
        ∧ (∃ bytes, (s.carryOut words).2.tree.get? place = some (.file bytes))
        ∧ (Path.Descends (crd.metadata.name ++ "." ++ format.extension) →
          ∃ base, (s.carryOut words).2.tree.placeOf directory = .ok base
            ∧ base <+: place ∧ base ≠ place) := by
  cases hrendered : request.rendered s.tree with
  | error e =>
    -- A rendering that fails before it writes leaves the files as they were.
    rw [Session.carryOut_render_error hwords hrendered] at hchanged
    exact absurd rfl hchanged
  | ok r =>
    obtain ⟨format, crds⟩ := r
    obtain ⟨written, left, rfl, hstores, -⟩ := Session.carryOut_store hwords hdirectory hrendered
    rcases hstores.changed hchanged with hmade | ⟨crd, hcrd, hplace, bytes, hfile⟩
    · exact .inl hmade
    · exact .inr ⟨format, _, crd, rfl, List.mem_append_left _ hcrd, hplace, ⟨bytes, hfile⟩,
        fun hname => hstores.below hcrd hname hplace hfile⟩

/-- What the request adds to the tree lies below the directory. -/
theorem sizesManifest_below : ∃ base,
    ((Session.manifest sizesManifest).carryOut storing).2.tree.placeOf "out" = .ok base
      ∧ base <+: ["out", "sizes.org.json"] ∧ base ≠ ["out", "sizes.org.json"] := by
  obtain ⟨composite, claim, -, -, hcrds, hname, hname', hstore, hget⟩ := exists_sizes_crds
  obtain ⟨hrendered, hrun⟩ := carryOut_storing sizesManifest_read hcrds hstore
  have hchanged : ((Session.manifest sizesManifest).carryOut storing).2.tree.get?
      ["out", "sizes.org.json"] ≠ (Session.manifest sizesManifest).tree.get?
        ["out", "sizes.org.json"] := by
    rw [hrun]
    exact fun h => hget (List.mem_cons.mpr (.inl h))
  -- The file is new, so it is one of the two definitions, and both have a name that stays below.
  rcases changed_below_directory storing_read rfl hchanged with
    ⟨-, hdirectory, -⟩ | ⟨format, crds, crd, hsame, hcrd, -, -, hbelow⟩
  · rw [hrun] at hdirectory
    exact absurd (by simp [hdirectory]) hget
  · obtain ⟨rfl, rfl⟩ := Prod.mk.inj (Except.ok.inj (hrendered.symm.trans hsame))
    refine hbelow ?_
    rcases List.mem_pair.mp hcrd with rfl | rfl
    · rw [hname]
      exact ⟨by decide, by decide⟩
    · rw [hname']
      exact ⟨by decide, by decide⟩

/-- The manifest of a definition whose name leads out of the directory. -/
def escapingManifest : String :=
  "metadata:\n  name: ../bigs\nspec:\n  group: org\n  names:\n    kind: Big\n    plural: bigs\n"

theorem stored_beside_directory :
    ((Session.manifest escapingManifest).carryOut storing).2.tree.get? ["bigs.json"]
        ≠ (Session.manifest escapingManifest).tree.get? ["bigs.json"]
      ∧ ((Session.manifest escapingManifest).carryOut storing).2.tree.placeOf "out" = .ok ["out"]
      ∧ ¬["out"] <+: ["bigs.json"] := by
  decide +kernel

end CompositeCrd
