import MarkdownTree.Proofs.ReloadedSettings

/-!
Files with default values. A file that is made anew holds the settings that the usual sources give
once the file of its own path is gone. So it holds the defaults exactly when the settings file that
is left and the variables name nothing else, above all when the usual file is made itself and there
are no such variables.
-/

namespace MarkdownTree.Settings

variable {lib : Libraries} {s : Section} {field : Field} {path : Files.Path} {u v w : Surroundings}

/-- What given values hold for the fields of a section is read as the defaults of these. -/
def Section.KeepsDefaults (lib : Libraries) (s : Section) (given : Entries) : Prop :=
  ∀ field ∈ s.fields, ∀ v, (s.fieldsIn given).get? field.name = some v →
    ∃ d, field.default = some d ∧ lib.Reads field v d

theorem isSome_default : ∀ s ∈ sections, ∀ field ∈ s.fields, field.default.isSome = true := by
  simp only [sections, tabsSection, loggingSection, List.forall_mem_cons]
  simp

/-- A field gets its default exactly when nothing is chosen for it that is read as something
else. -/
theorem eq_default_iff {chosen? : Option Value} {value : Value} (hd : field.default.isSome)
    (h : lib.Gets field chosen? value) :
    value = field.default.getD .null ↔
      ∀ u, chosen? = some u → ∃ d, field.default = some d ∧ lib.Reads field u d := by
  obtain ⟨d, hd⟩ := Option.isSome_iff_exists.mp hd
  cases chosen? with
  | none =>
    have hvalue : field.default = some value := h
    simp [hvalue]
  | some u =>
    have hread : lib.Reads field u value := h
    simp only [hd, Option.getD_some, Option.some.injEq, forall_eq', exists_eq_left']
    exact ⟨fun heq => heq ▸ hread, fun hdefault => hread.unique hdefault⟩

theorem default_eq (s : Section) :
    s.default = .record s.type (s.filled fun field => field.default.getD .null) :=
  rfl

/-- A section has its defaults exactly when nothing else is chosen for its fields. -/
theorem filled_eq_default_iff {given : Entries} {value : Field → Value} (hs : s ∈ sections)
    (h : ∀ field ∈ s.fields, lib.Gets field ((s.fieldsIn given).get? field.name) (value field)) :
    Value.record s.type (s.filled value) = s.default ↔ s.KeepsDefaults lib given := by
  rw [default_eq, Value.record.injEq, Section.filled, Section.filled, List.map_inj_left]
  simp only [true_and, Prod.mk.injEq]
  refine forall₂_congr fun field hfield => ?_
  exact eq_default_iff (isSome_default s hs field hfield) (h field hfield)

/-- What a settings file that was made anew is loaded as: the settings that the sources which are
left give. -/
theorem load_created (hlib : lib.Rules) (hpath : path.namedUser? = none)
    (hcreate : (createDefault lib path).run.run u = (.ok (), v))
    (hfile : w.files.at? path = v.files.at? path) (hassigned : OnlyFields w.assigned) :
    ∃ files settings value, u.files.cleared path = .ok files ∧
      ofSources lib { u with files := files } [] = .ok settings ∧
      settings = settingsOf ⟨recordName, 0⟩ value ∧
      (load lib path).run.run w = (.ok (settingsOf ⟨fileRecordName, w.loads + 1⟩ value),
        { w with loads := w.loads + 1 }) := by
  rw [run_createDefault] at hcreate
  cases hcleared : u.files.cleared path with
  | error e =>
    rw [hcleared] at hcreate
    cases hcreate
  | ok files =>
    cases hmake : ofSources lib { u with files := files } [] with
    | error e =>
      simp only [hcleared, hmake] at hcreate
      cases hcreate
    | ok settings =>
      simp only [hcleared, hmake] at hcreate
      obtain ⟨fromFile, fromVariables, hfrom, hvariables, hread⟩ := make_eq_ok hmake
      have hunread := hlib.unread_merge hfrom hvariables
      obtain ⟨-, -, -, value, hgets, rfl⟩ := (hlib.readSettings _ _ _ hunread).1 hread
      have hvalue : ∀ s ∈ sections, ∀ field ∈ s.fields, lib.Holds field (value s field) :=
        fun s hs field hfield => ⟨_, hgets s hs field hfield⟩
      obtain ⟨text, htext, hat⟩ := of_exportTo hcreate
      rw [serialize_settingsOf hlib hvalue] at htext
      cases htext
      exact ⟨files, _, value, rfl, hmake, rfl,
        load_fileText hlib hvalue hpath (hfile.trans hat) hassigned⟩

/-- A settings file that was made anew is loaded with the defaults exactly when the sources that are
left name nothing else: the usual settings file, which is not there any more if it was made anew
itself, and the variables. -/
theorem load_createDefault (hlib : lib.Rules) (hpath : path.namedUser? = none)
    (hcreate : (createDefault lib path).run.run u = (.ok (), v))
    (hfile : w.files.at? path = v.files.at? path) (hassigned : OnlyFields w.assigned) :
    ∃ files fromFile fromVariables loaded x, u.files.cleared path = .ok files ∧
      lib.ofFile { u with files := files } defaultPath = .ok fromFile ∧
      lib.ofVariables u.assigned = .ok fromVariables ∧
      (load lib path).run.run w = (.ok loaded, x) ∧
      ((∀ s ∈ sections, loaded.member? s.key = some s.default) ↔
        ∀ s ∈ sections,
          s.KeepsDefaults lib (lib.merge [lib.align [], fromFile, fromVariables])) := by
  obtain ⟨files, settings, value, hcleared, hmake, hsettings, hload⟩ :=
    load_created hlib hpath hcreate hfile hassigned
  obtain ⟨fromFile, fromVariables, hfrom, hvariables, hread⟩ := make_eq_ok hmake
  have hunread := hlib.unread_merge hfrom hvariables
  obtain ⟨-, -, -, other, hgets, hother⟩ := (hlib.readSettings _ _ _ hunread).1 hread
  refine ⟨files, fromFile, fromVariables, _, _, hcleared, hfrom, hvariables, hload,
    forall₂_congr fun s hs => ?_⟩
  rw [member?_settingsOf hs, Option.some.injEq,
    filled_of_settingsOf_eq (hsettings.symm.trans hother) hs]
  exact filled_eq_default_iff hs (hgets s hs)

theorem createDefault_of_writeBelow (hlib : lib.Rules) {files written : Files.Store}
    {settings : Value} (hcleared : u.files.cleared path = .ok files)
    (hmake : ofSources lib { u with files := files } [] = .ok settings)
    (hwrite : files.writeBelow path "" = .ok written) (hallowed : ∀ c, written.refuse c = none) :
    ∃ t, (createDefault lib path).run.run u = (.ok (), { u with files := t }) := by
  obtain ⟨text, htext⟩ := exists_serialize hlib (validated_of_make hlib hmake)
  obtain ⟨t, ht⟩ :=
    exportTo_of_writeBelow (w := { u with files := files }) htext hwrite hallowed
  refine ⟨t, ?_⟩
  simp only [run_createDefault, hcleared, hmake, ht]

def usualFile (text : String) (assigned : List (String × String)) : Surroundings where
  files := { emptyFolder.files with
    entries := [(["home", "here", "doctree.toml"], .file text), (["home"], .folder)] }
  assigned := assigned
  homes := []
  loads := 0

/-- The usual settings file names a strategy, and a variable the default category with a blank
before it. The file is made anew by its whole path, and loaded with the defaults where a variable
names another category. -/
theorem load_createDefault_renewed :
    let path : Files.Path := .ofString "/home/here/doctree.toml"
    let u := usualFile "[tabs]\nstrategy = \"stash\"\n" [("DOCTREE_TABS__CATEGORY", " tabs")]
    ∃ t loaded x, (createDefault .standard path).run.run u = (.ok (), { u with files := t }) ∧
      (load .standard path).run.run ⟨t, [("DOCTREE_TABS__CATEGORY", "marked")], [], 0⟩ =
        (.ok loaded, x) ∧
      ∀ s ∈ sections, loaded.member? s.key = some s.default := by
  intro path u
  let files : Files.Store := { u.files with entries := [(["home"], .folder)] }
  have hcleared : u.files.cleared path = .ok files := by rfl
  have hnothing : Libraries.standard.ofFile { u with files := files } defaultPath = .ok [] := by rfl
  have hnamed : Libraries.standard.ofVariables u.assigned =
      .ok [("tabs", .mapping [("category", .str " tabs")])] := by rfl
  have hmake : ofSources .standard { u with files := files } [] = .ok (construct []) :=
    (make_eq hnothing hnamed).trans rfl
  have hwrite : files.writeBelow path "" = .ok { files with
      entries := [(["home", "here", "doctree.toml"], .file ""), (["home"], .folder)] } := by rfl
  obtain ⟨t, hcreate⟩ :=
    createDefault_of_writeBelow rules_standard hcleared hmake hwrite fun _ => rfl
  have hcategory : Text.lower "DOCTREE_TABS__CATEGORY".toList =
      leafName tabsSection tabsSection.fields[0] := by decide
  have hassigned : OnlyFields [("DOCTREE_TABS__CATEGORY", "marked")] := by
    intro entry hentry _
    obtain rfl := List.mem_singleton.mp hentry
    exact ⟨tabsSection, .head _, _, List.getElem_mem _, hcategory⟩
  obtain ⟨left, fromFile, fromVariables, loaded, x, hleft, hfile, hvariables, hload, hiff⟩ :=
    load_createDefault (w := ⟨t, [("DOCTREE_TABS__CATEGORY", "marked")], [], 0⟩) rules_standard
      (by decide) hcreate rfl hassigned
  rw [hcleared] at hleft
  cases hleft
  rw [hnothing] at hfile
  cases hfile
  rw [hnamed] at hvariables
  cases hvariables
  refine ⟨t, loaded, x, hcreate, hload, hiff.mpr fun s hs field hfield v hv => ?_⟩
  simp only [sections, List.mem_cons, List.not_mem_nil, or_false] at hs
  obtain rfl | rfl := hs
  · simp only [tabsSection, List.mem_cons, List.not_mem_nil, or_false] at hfield
    obtain rfl | rfl | rfl := hfield <;> cases hv
    exact ⟨_, rfl, _, rfl, rfl⟩
  · simp only [loggingSection, List.mem_cons, List.not_mem_nil, or_false] at hfield
    subst hfield
    cases hv

/-- No variable is one of the settings. -/
def NoneAssigned (assigned : List (String × String)) : Prop :=
  ∀ entry ∈ assigned, ¬ variablesStart <+: Text.lower entry.1.toList

theorem NoneAssigned.onlyFields {assigned : List (String × String)} (h : NoneAssigned assigned) :
    OnlyFields assigned :=
  fun entry hentry hstart => absurd hstart (h entry hentry)

theorem NoneAssigned.assignedTo? {assigned : List (String × String)} (h : NoneAssigned assigned) :
    Settings.assignedTo? assigned s field = none := by
  rw [Settings.assignedTo?, Option.map_eq_none_iff, List.find?_eq_none]
  intro entry hentry heq
  refine h entry (List.mem_reverse.1 hentry) ?_
  rw [beq_iff_eq.1 heq, leafName, List.append_assoc, List.append_assoc]
  exact List.prefix_append _ _

/-- The usual settings file has the defaults if it is made anew where no variable is one of the
settings, whatever it held before. -/
theorem load_createDefault_usual (hlib : lib.Rules)
    (hcreate : (createDefault lib defaultPath).run.run u = (.ok (), v))
    (hfile : w.files.at? defaultPath = v.files.at? defaultPath)
    (hu : NoneAssigned u.assigned) (hw : NoneAssigned w.assigned) :
    ∃ loaded x, (load lib defaultPath).run.run w = (.ok loaded, x) ∧
      ∀ s ∈ sections, loaded.member? s.key = some s.default := by
  obtain ⟨files, settings, value, hcleared, hmake, hsettings, hload⟩ :=
    load_created hlib (by decide) hcreate hfile hw.onlyFields
  have htables : TablesAt files defaultPath [] := by
    unfold TablesAt
    rw [Files.Store.at?_of_cleared hcleared]
  obtain ⟨-, -, other, hgets, hother⟩ := (make_eq_ok_iff (w := { u with files := files }) hlib
    hu.onlyFields (by decide) rfl nested_nil htables nested_nil).1 hmake
  refine ⟨_, _, hload, fun s hs => ?_⟩
  rw [member?_settingsOf hs, filled_of_settingsOf_eq (hsettings.symm.trans hother) hs, default_eq,
    Section.filled, Section.filled, List.map_congr_left fun field hfield => ?_]
  have hnone : (Layers.mk [] [] u.assigned).chosen? s field = none := by
    have hnothing : (s.fieldsOf []).get? field.name = none := rfl
    rw [Layers.chosen?, hnothing, hu.assignedTo?]
    rfl
  have hdefault := hgets s hs field hfield
  rw [hnone] at hdefault
  have hdefault : field.default = some (other s field) := hdefault
  rw [hdefault, Option.getD_some]

def markedText : String :=
  fileHeader ++ Toml.tableTexts false [("tabs", [("category", .str "marked")])]

theorem read_markedText :
    Toml.read markedText = .ok [("tabs", .mapping [("category", .str "marked")])] := by
  have hflat : Toml.Flat [("category", .str "marked")] := by
    refine ⟨by decide, fun entry hentry => ?_, by decide⟩
    obtain rfl := List.mem_singleton.mp hentry
    exact .text "marked"
  exact read_tableTexts ⟨by decide, by simpa using hflat, by decide⟩

/-- Beside the usual settings file, a file that is made anew takes over what that names. -/
theorem not_default_besideUsual :
    ¬ ∀ (path : Files.Path) (u v w : Surroundings), path.namedUser? = none →
      (createDefault .standard path).run.run u = (.ok (), v) →
      w.files.at? path = v.files.at? path → NoneAssigned w.assigned →
      ∃ loaded x, (load .standard path).run.run w = (.ok loaded, x) ∧
        ∀ s ∈ sections, loaded.member? s.key = some s.default := by
  intro hall
  let path : Files.Path := .ofString "c.toml"
  let u := usualFile markedText []
  have hpath : path.namedUser? = none := by decide
  have hcleared : u.files.cleared path = .ok u.files := by rfl
  have hnone : NoneAssigned u.assigned := fun entry hentry => by cases hentry
  have hnamed : Libraries.standard.ofFile u defaultPath =
      .ok (alignNames [("tabs", .mapping [("category", .str "marked")])]) :=
    ofFile_eq (by decide) rfl read_markedText
  have hvariables : Libraries.standard.ofVariables u.assigned = .ok [] := by rfl
  have hmake : ofSources .standard u [] =
      .ok (construct [("tabs", tabsSection.construct [("category", .str "marked")])]) :=
    (make_eq hnamed hvariables).trans rfl
  have hwrite : u.files.writeBelow path "" = .ok { u.files with
      entries := (["home", "here", "c.toml"], .file "") :: u.files.entries } := by rfl
  obtain ⟨t, hcreate⟩ :=
    createDefault_of_writeBelow rules_standard hcleared hmake hwrite fun _ => rfl
  obtain ⟨files, settings, value, hleft, hmade, hsettings, hload⟩ :=
    load_created (w := { u with files := t }) rules_standard hpath hcreate rfl hnone.onlyFields
  obtain ⟨other, y, hother, hdefault⟩ := hall path u _ { u with files := t } hpath hcreate rfl hnone
  rw [hload] at hother
  cases hother
  rw [hcleared] at hleft
  cases hleft
  have hmade : ofSources .standard u [] = .ok settings := hmade
  rw [hmake, Except.ok.injEq, hsettings] at hmade
  have htabs := hdefault tabsSection (.head _)
  rw [member?_settingsOf (.head _)] at htabs
  have hmember := congrArg (·.member? "tabs") hmade
  have hcategory := congrArg (·.bind (·.member? "category"))
    ((hmember.trans (member?_settingsOf (.head _))).trans htabs)
  exact absurd (Value.str.inj (Option.some.inj hcategory)) (by decide)

end MarkdownTree.Settings
