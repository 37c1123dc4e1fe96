import MarkdownTree.Proofs.MadeSettings
import MarkdownTree.Proofs.StandardLibraries

/-!
Which source counts for a field. Settings are made from given values, the usual file and variables,
and loaded from a file and variables; in both cases each field is read from the first of these that
has it, and what the others say does not matter, be it readable or not. The one exception are files
of paths that begin with a home folder: these are looked for elsewhere when they are loaded.
-/

namespace MarkdownTree.Settings

variable {lib : Libraries} {w : Surroundings} {path : Files.Path}

/-- Made from given dictionaries, the usual file and variables of single fields, settings have for
each field what is read from the first of these that has it, or its default; that fails only if this
value cannot be read, or if a name is unknown. Loaded from a file, they have what the file and the
variables give, whatever the usual file holds. -/
theorem settings_of_layers (hlib : lib.Rules) (hassigned : OnlyFields w.assigned) :
    (∀ given tables settings, Value.isKeyedEntries given = true → Nested given →
      TablesAt w.files defaultPath tables → Nested tables →
      (ofSources lib w given = .ok settings ↔
        (Layers.mk given tables w.assigned).Give lib ⟨recordName, 0⟩ settings)) ∧
    ∀ path tables settings, path.namedUser? = none → (w.files.at? path).isSome →
      TablesAt w.files path tables → Nested tables →
      ((load lib path).run.run w = (.ok settings, { w with loads := w.loads + 1 }) ↔
        (Layers.mk [] tables w.assigned).Give lib ⟨fileRecordName, w.loads + 1⟩ settings) := by
  refine ⟨fun given tables settings hgiven hnested htables hsections => ?_,
    fun path tables settings hpath hat htables hsections => ?_⟩
  · exact make_eq_ok_iff hlib hassigned (by decide) hgiven hnested htables hsections
  · exact load_eq_ok_iff hlib hassigned hpath hat htables hsections

/-- What the tables of a file hold that is written from them. -/
theorem tablesAt_of_flat {files : Files.Store} {flat : List (String × Entries)}
    (h : Toml.FlatDocument flat)
    (hat : files.at? path = some (.file (fileHeader ++ Toml.tableTexts false flat))) :
    TablesAt files path (Toml.entriesOf flat) := by
  unfold TablesAt
  rw [hat]
  exact read_tableTexts h

/-- A document of one table. -/
theorem flatDocument_singleton {key : String} {fields : Entries} (hkey : Toml.isBarePart key = true)
    (h : Toml.Flat fields) : Toml.FlatDocument [(key, fields)] :=
  ⟨by simpa using hkey, by simpa using h, List.nodup_singleton key⟩

/-- The usual file names a category, and a flag that is none. -/
def usualTabs : Entries :=
  [("category", .str "usual"), ("group_consecutive", .str "perhaps")]

def otherTabs : Entries :=
  [("category", .str " other ")]

theorem flat_usualTabs : Toml.Flat usualTabs := by
  refine ⟨by decide, fun entry hentry => ?_, by decide⟩
  simp only [usualTabs, List.mem_cons, List.not_mem_nil, or_false] at hentry
  rcases hentry with rfl | rfl <;> exact .text _

theorem flat_otherTabs : Toml.Flat otherTabs := by
  refine ⟨by decide, fun entry hentry => ?_, by decide⟩
  obtain rfl := List.mem_singleton.1 hentry
  exact .text _

def otherText : String :=
  fileHeader ++ Toml.tableTexts false [("tabs", otherTabs)]

/-- Both files, of which the other one lies outside the working folder, a variable that names a
blank category, and one that names a strategy. -/
def crowded : Surroundings where
  files := { Files.Store.empty with
    entries := [
      (["here", "doctree.toml"], .file (fileHeader ++ Toml.tableTexts false [("tabs", usualTabs)])),
      (["c.toml"], .file otherText)]
    working := ["here"] }
  assigned := [("DOCTREE_TABS__CATEGORY", " "), ("doctree_tabs__Strategy", "stash")]
  homes := []
  loads := 0

theorem onlyFields_crowded : OnlyFields crowded.assigned := by
  have hcategory : Text.lower "DOCTREE_TABS__CATEGORY".toList =
      leafName tabsSection tabsSection.fields[0] := by decide
  have hstrategy : Text.lower "doctree_tabs__Strategy".toList =
      leafName tabsSection tabsSection.fields[1] := by decide
  intro entry hentry _
  simp only [crowded, List.mem_cons, List.not_mem_nil, or_false] at hentry
  rcases hentry with rfl | rfl
  · exact ⟨tabsSection, .head _, _, List.getElem_mem _, hcategory⟩
  · exact ⟨tabsSection, .head _, _, List.getElem_mem _, hstrategy⟩

/-- Dictionaries for the tabs alone. -/
theorem nested_singleton {name : String} (fields : Entries) : Nested [(name, .mapping fields)] := by
  intro s _ v hv
  rcases Option.or_eq_some_iff.1 hv with hown | ⟨-, hother⟩
  · have hmem := Entries.mem_of_get?_eq hown
    exact ⟨fields, (Prod.mk.inj (List.mem_singleton.1 hmem)).2⟩
  · obtain ⟨entry, hentry, rfl⟩ := Option.map_eq_some_iff.1 hother
    rw [List.mem_singleton.1 (List.mem_of_find?_eq_some hentry)]
    exact ⟨fields, rfl⟩

theorem forall_fields_iff {P : Section → Field → Prop} :
    (∀ s ∈ sections, ∀ field ∈ s.fields, P s field) ↔
      (P tabsSection tabsSection.fields[0] ∧ P tabsSection tabsSection.fields[1] ∧
        P tabsSection tabsSection.fields[2]) ∧ P loggingSection loggingSection.fields[0] := by
  simp [sections, tabsSection, loggingSection]

def tabsValues (category strategy : String) (grouped : Bool) (_ : Section) (field : Field) :
    Value :=
  if field.name = "category" then .str category
  else if field.name = "strategy" then .str strategy
  else if field.name = "group_consecutive" then .bool grouped
  else .str "INFO"

/-- The category of the usual file and the strategy of a variable are taken together with a flag
that is given; and the category of the other file, that strategy and the default flag. The values
that do not count could not be read. -/
theorem settings_of_layers_crowded :
    ofSources .standard crowded [("Tabs", .mapping [("group_consecutive", .bool true)])] =
        .ok (settingsOf ⟨recordName, 0⟩ (tabsValues "usual" "stash" true)) ∧
      (load .standard (.ofString "../c.toml")).run.run crowded =
        (.ok (settingsOf ⟨fileRecordName, 1⟩ (tabsValues "other" "stash" false)),
          { crowded with loads := 1 }) := by
  have husual : TablesAt crowded.files defaultPath (Toml.entriesOf [("tabs", usualTabs)]) :=
    tablesAt_of_flat (flatDocument_singleton (by decide) flat_usualTabs) rfl
  have hother : TablesAt crowded.files (.ofString "../c.toml")
      (Toml.entriesOf [("tabs", otherTabs)]) :=
    tablesAt_of_flat (flatDocument_singleton (by decide) flat_otherTabs) rfl
  obtain ⟨hmade, hloaded⟩ := settings_of_layers rules_standard onlyFields_crowded
  refine ⟨(hmade _ _ _ rfl (nested_singleton _) husual (nested_singleton _)).2 ⟨?_, ?_, _, ?_, rfl⟩,
    (hloaded _ _ _ (by decide) rfl hother (nested_singleton _)).2 ⟨?_, ?_, _, ?_, rfl⟩⟩
  · decide
  · decide
  · exact forall_fields_iff.2 ⟨⟨⟨_, rfl, rfl⟩, ⟨_, rfl, rfl⟩, ⟨_, rfl, rfl⟩⟩, rfl⟩
  · decide
  · decide
  · exact forall_fields_iff.2 ⟨⟨⟨_, rfl, rfl⟩, ⟨_, rfl, rfl⟩, rfl⟩, rfl⟩

def belowTilde : Surroundings where
  files := { Files.Store.empty with
    entries := [(["~", "c.toml"], .file otherText), (["~"], .folder)] }
  assigned := [("HOME", "home")]
  homes := []
  loads := 0

theorem onlyFields_belowTilde : OnlyFields belowTilde.assigned := by
  intro entry hentry hstart
  obtain rfl := List.mem_singleton.1 hentry
  exact absurd hstart (by decide)

/-- A file of a path that begins with a home folder does not count: it is not looked for where it
is, and the default category is loaded. -/
theorem not_chosen_belowHome :
    ¬ ∀ (w : Surroundings) (path : Files.Path) (tables : Entries) (settings : Value),
      OnlyFields w.assigned → (w.files.at? path).isSome → TablesAt w.files path tables →
      Nested tables →
      ((load .standard path).run.run w = (.ok settings, { w with loads := w.loads + 1 }) ↔
        (Layers.mk [] tables w.assigned).Give .standard ⟨fileRecordName, w.loads + 1⟩
          settings) := by
  intro hall
  have htables : TablesAt belowTilde.files (.ofString "~/c.toml")
      (Toml.entriesOf [("tabs", otherTabs)]) :=
    tablesAt_of_flat (flatDocument_singleton (by decide) flat_otherTabs) rfl
  have hgive : (Layers.mk [] (Toml.entriesOf [("tabs", otherTabs)]) belowTilde.assigned).Give
      .standard ⟨fileRecordName, 1⟩ (settingsOf ⟨fileRecordName, 1⟩
      (tabsValues "other" "interleaved" false)) := by
    refine ⟨by decide, by decide, _, ?_, rfl⟩
    exact forall_fields_iff.2 ⟨⟨⟨_, rfl, rfl⟩, rfl, rfl⟩, rfl⟩
  have hload := (hall belowTilde _ _ _ onlyFields_belowTilde rfl htables (nested_singleton _)).2
    hgive
  have hfile : Libraries.standard.ofFile { belowTilde with loads := 1 } (.ofString "~/c.toml") =
      .ok [] := by rfl
  have hvariables : Libraries.standard.ofVariables belowTilde.assigned = .ok [] := by rfl
  have hdefault : (load .standard (.ofString "~/c.toml")).run.run belowTilde = (.ok _, _) :=
    load_of_make rfl ((make_eq hfile hvariables).trans rfl)
  rw [hdefault] at hload
  have hsettings := Except.ok.inj (Prod.mk.inj hload).1
  have hcategory := congrArg
    (fun settings : Value => (settings.member? "tabs").bind (·.member? "category")) hsettings
  exact absurd (Value.str.inj (Option.some.inj hcategory)) (by decide)

end MarkdownTree.Settings
