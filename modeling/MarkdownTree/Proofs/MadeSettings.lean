import MarkdownTree.Proofs.LayeredSettings
import MarkdownTree.Proofs.StoredFiles

/-!
Settings that are made from sources, and the steps of the operations on settings files: writing
settings, making a file anew, and loading one. Main statements: settings are made as the sources
give them, and a file is loaded as what it and the variables give.
-/

namespace MarkdownTree

/-- A file that was written can be written again, if that is not refused. -/
theorem Files.Store.exists_write {s t : Store} {p : Path} {text other : String}
    (h : s.write p text = .ok t) (hallowed : ∀ place, s.refuse (.write place other) = none) :
    ∃ u, t.write p other = .ok u := by
  obtain ⟨place, hlocate, hbecomes⟩ := write_eq_ok h
  refine ⟨t.changed (.write place other), ?_⟩
  rw [write_eq (hbecomes.locate_iff.2 hlocate) (by simp [hbecomes.self]), change_eq_ok_iff,
    hbecomes.refuse]
  exact ⟨hallowed place, rfl⟩

namespace Settings

variable {lib : Libraries} {w u v : Surroundings} {path : Files.Path} {given tables : Entries}
  {type : RecordType} {settings : Value}

theorem make_eq {fromFile fromVariables : Entries} (hfile : lib.ofFile w path = .ok fromFile)
    (hvariables : lib.ofVariables w.assigned = .ok fromVariables) :
    make lib w type path given =
      (lib.readSettings type (lib.merge [lib.align given, fromFile, fromVariables])).mapError
        .invalid := by
  simp only [make, hfile, hvariables, Except.mapError, bind, Except.bind]

/-- What goes into settings that are made. -/
theorem make_eq_ok (h : make lib w type path given = .ok settings) :
    ∃ fromFile fromVariables, lib.ofFile w path = .ok fromFile ∧
      lib.ofVariables w.assigned = .ok fromVariables ∧
      lib.readSettings type (lib.merge [lib.align given, fromFile, fromVariables]) =
        .ok settings := by
  cases hfile : lib.ofFile w path with
  | error e => simp [make, hfile, bind, Except.bind] at h
  | ok fromFile =>
    cases hvariables : lib.ofVariables w.assigned with
    | error e => simp [make, hfile, hvariables, Except.mapError, bind, Except.bind] at h
    | ok fromVariables =>
      rw [make_eq hfile hvariables] at h
      refine ⟨fromFile, fromVariables, rfl, rfl, ?_⟩
      unfold Except.mapError at h
      split at h <;> cases h
      assumption

theorem TablesAt.isKeyed {files : Files.Store} (h : TablesAt files path tables) :
    Value.isKeyedEntries tables = true := by
  unfold TablesAt at h
  split at h
  · exact Toml.isKeyed_read h
  · subst h
    rfl

/-- Settings of any type, with any file and any given values, are made as the sources give them. -/
theorem make_eq_ok_iff (hlib : lib.Rules) (hassigned : OnlyFields w.assigned)
    (hpath : path.namedUser? = none) (hgiven : Value.isKeyedEntries given = true)
    (hnested : Nested given) (htables : TablesAt w.files path tables) (hsections : Nested tables) :
    make lib w type path given = .ok settings ↔
      (Layers.mk given tables w.assigned).Give lib type settings := by
  obtain ⟨fromFile, hfile, haligns⟩ := hlib.ofFile w path tables hpath htables
  obtain ⟨fromVariables, hvariables, hof, hfields⟩ := hlib.ofVariables w.assigned hassigned
  have hown := hlib.align given (Entries.nodup_names_of_isKeyed hgiven)
  rw [make_eq hfile hvariables, ← readSettings_merge_iff hlib hof hown (hown.layer hnested hgiven)
    haligns (haligns.layer hsections htables.isKeyed) hfields]
  unfold Except.mapError
  split <;> simp_all

theorem nested_nil : Nested [] := by
  intro s hs v hv
  cases hv

/-- Settings that are made from sources alone are validated. -/
theorem validated_of_make (hlib : lib.Rules) (h : make lib w type path [] = .ok settings) :
    Validated lib settings := by
  obtain ⟨fromFile, fromVariables, hfile, hvariables, hread⟩ := make_eq_ok h
  exact validated_of_readSettings hlib (hlib.unread_merge hfile hvariables) hread

theorem run_bind {α β : Type} (e : FileEdit α) (next : α → FileEdit β) (w : Surroundings) :
    (e >>= next).run.run w =
      match e.run.run w with
      | (.ok a, v) => (next a).run.run v
      | (.error fault, v) => (.error fault, v) := by
  simp only [ExceptT.run_bind, StateT.run_bind]
  obtain ⟨_ | _, _⟩ := e.run.run w <;> rfl

/-- A change of the files, and what comes after it. -/
theorem run_setFiles {α : Type} (change : Files.Store → Except Files.Fault Files.Store)
    (next : FileEdit α) (w : Surroundings) :
    (do setFiles (change (← get).files); next : FileEdit α).run.run w =
      match change w.files with
      | .error e => (.error (.file e), w)
      | .ok files => next.run.run { w with files := files } := by
  rw [run_bind]
  change ((setFiles (change w.files) >>= fun _ => next).run.run w) = _
  rw [run_bind]
  cases change w.files <;> rfl

/-- An export makes the file with its folders, and writes the settings to it. -/
theorem run_exportTo :
    (exportTo lib settings path).run.run w =
      match w.files.ensureFolders path.parent with
      | .error e => (.error (.file e), w)
      | .ok folders =>
        match folders.write path "" with
        | .error e => (.error (.file e), { w with files := folders })
        | .ok files =>
          match serialize lib settings with
          | .error e => (.error (.unwritable e), { w with files := files })
          | .ok text =>
            match files.write path text with
            | .error e => (.error (.file e), { w with files := files })
            | .ok written => (.ok (), { w with files := written }) := by
  rw [exportTo, run_setFiles fun files => files.ensureFolders path.parent]
  cases w.files.ensureFolders path.parent with
  | error e => rfl
  | ok folders =>
    simp only
    rw [run_setFiles fun files => files.write path ""]
    simp only
    cases folders.write path "" with
    | error e => rfl
    | ok files =>
      simp only
      cases serialize lib settings with
      | error e => rfl
      | ok text =>
        simp only
        change (setFiles (files.write path text)).run.run { w with files := files } = _
        cases files.write path text <;> rfl

theorem exportTo_of_write {text : String} {files t : Files.Store}
    (htext : serialize lib settings = .ok text) (h : w.files.writeBelow path "" = .ok files)
    (hwrite : files.write path text = .ok t) :
    (exportTo lib settings path).run.run w = (.ok (), { w with files := t }) := by
  unfold Files.Store.writeBelow at h
  cases hfolders : w.files.ensureFolders path.parent with
  | error e => simp [hfolders] at h
  | ok folders =>
    simp only [hfolders] at h
    simp only [run_exportTo, hfolders, h, htext, hwrite]

/-- Settings that can be written can be exported wherever a file can be made with its folders and
nothing is refused. -/
theorem exportTo_of_writeBelow {text : String} {files : Files.Store}
    (htext : serialize lib settings = .ok text) (h : w.files.writeBelow path "" = .ok files)
    (hallowed : ∀ c, files.refuse c = none) :
    ∃ t, (exportTo lib settings path).run.run w = (.ok (), { w with files := t }) := by
  have hempty : ∃ folders : Files.Store, folders.write path "" = .ok files := by
    unfold Files.Store.writeBelow at h
    split at h
    · cases h
    · exact ⟨_, h⟩
  obtain ⟨folders, hfolders⟩ := hempty
  obtain ⟨_, -, hbecomes⟩ := Files.Store.write_eq_ok hfolders
  have hrefuse : ∀ place, folders.refuse (.write place text) = none := by
    intro place
    rw [← hbecomes.refuse]
    exact hallowed _
  obtain ⟨t, ht⟩ := Files.Store.exists_write hfolders hrefuse
  exact ⟨t, exportTo_of_write htext h ht⟩

/-- What an export leaves. -/
theorem of_exportTo (h : (exportTo lib settings path).run.run w = (.ok (), v)) :
    ∃ text, serialize lib settings = .ok text ∧ v.files.at? path = some (.file text) := by
  rw [run_exportTo] at h
  cases hfolders : w.files.ensureFolders path.parent with
  | error e =>
    rw [hfolders] at h
    cases h
  | ok folders =>
    simp only [hfolders] at h
    cases hempty : folders.write path "" with
    | error e =>
      rw [hempty] at h
      cases h
    | ok files =>
      simp only [hempty] at h
      cases htext : serialize lib settings with
      | error e =>
        rw [htext] at h
        cases h
      | ok text =>
        simp only [htext] at h
        cases hwrite : files.write path text with
        | error e =>
          rw [hwrite] at h
          cases h
        | ok written =>
          rw [hwrite] at h
          cases h
          exact ⟨text, rfl, Files.Store.at?_of_write hwrite⟩

/-- Loading reads the file of a path where there is one, as a type of settings of its own. -/
theorem run_load :
    (load lib path).run.run w =
      if (w.files.at? path).isNone then (.error (.missing path), w)
      else
        match make lib { w with loads := w.loads + 1 } ⟨fileRecordName, w.loads + 1⟩ path [] with
        | .ok settings => (.ok settings, { w with loads := w.loads + 1 })
        | .error e => (.error (.unloadable path e), { w with loads := w.loads + 1 }) := by
  have hget (v : Surroundings) : (get : FileEdit Surroundings).run.run v = (.ok v, v) := rfl
  have hloads : (modify fun w => { w with loads := w.loads + 1 } : FileEdit Unit).run.run w =
      (.ok (), { w with loads := w.loads + 1 }) := rfl
  rw [load, run_bind, hget]
  simp only
  split
  · rfl
  · simp only [run_bind, hget, hloads]
    cases make lib { w with loads := w.loads + 1 } ⟨fileRecordName, w.loads + 1⟩ path [] <;> rfl

theorem load_of_make {entry : Files.Entry} (hpath : w.files.at? path = some entry)
    (hmake : make lib { w with loads := w.loads + 1 } ⟨fileRecordName, w.loads + 1⟩ path [] =
      .ok settings) :
    (load lib path).run.run w = (.ok settings, { w with loads := w.loads + 1 }) := by
  rw [run_load, hpath, hmake]
  rfl

/-- A settings file is made anew in three steps. -/
theorem run_createDefault :
    (createDefault lib path).run.run u =
      match u.files.cleared path with
      | .error e => (.error (.file e), u)
      | .ok files =>
        match ofSources lib { u with files := files } [] with
        | .ok settings => (exportTo lib settings path).run.run { u with files := files }
        | .error e => (.error (.make e), { u with files := files }) := by
  have hget (x : Surroundings) : (get : FileEdit Surroundings).run.run x = (.ok x, x) := rfl
  have hsources (files : Files.Store) :
      (do
        match ofSources lib (← get) [] with
        | .ok settings => exportTo lib settings path
        | .error e => throw (.make e) : FileEdit Unit).run.run { u with files := files } =
      match ofSources lib { u with files := files } [] with
      | .ok settings => (exportTo lib settings path).run.run { u with files := files }
      | .error e => (.error (.make e), { u with files := files }) := by
    rw [run_bind, hget]
    simp only
    cases ofSources lib { u with files := files } [] <;> rfl
  rw [createDefault, run_bind, hget]
  simp only [Files.Store.cleared]
  split
  · rw [run_setFiles fun files => files.remove path]
    cases u.files.remove path with
    | error e => rfl
    | ok files => exact hsources files
  · exact hsources u.files

/-- A file is loaded as the settings that it and the variables give. -/
theorem load_eq_ok_iff (hlib : lib.Rules) (hassigned : OnlyFields w.assigned)
    (hpath : path.namedUser? = none) (hat : (w.files.at? path).isSome)
    (htables : TablesAt w.files path tables) (hsections : Nested tables) :
    (load lib path).run.run w = (.ok settings, { w with loads := w.loads + 1 }) ↔
      (Layers.mk [] tables w.assigned).Give lib ⟨fileRecordName, w.loads + 1⟩ settings := by
  have hsome : ¬ (w.files.at? path).isNone = true := by
    rw [Option.isNone_iff_eq_none]
    exact Option.isSome_iff_ne_none.1 hat
  rw [← make_eq_ok_iff (w := { w with loads := w.loads + 1 }) hlib hassigned hpath rfl nested_nil
    htables hsections, run_load, if_neg hsome]
  cases make lib { w with loads := w.loads + 1 } ⟨fileRecordName, w.loads + 1⟩ path [] with
  | error e => exact ⟨fun h => (by cases h), fun h => (by cases h)⟩
  | ok loaded => exact ⟨fun h => (by cases h; rfl), fun h => (by cases h; rfl)⟩

end Settings

end MarkdownTree
