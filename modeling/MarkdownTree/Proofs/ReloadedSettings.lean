import MarkdownTree.Proofs.MadeSettings
import MarkdownTree.Proofs.StandardLibraries

/-!
Settings that are written to a file and loaded from it are the same settings, whatever the variables
say that name their fields: the file holds every field, and counts more. The one exception are paths
that begin with a home folder: the file is written below a folder of that name, and looked for below
the home folder.
-/

namespace MarkdownTree.Settings

variable {lib : Libraries} {settings : Value} {path : Files.Path} {u v w : Surroundings}
  {s : Section} {field : Field} {value : Section → Field → Value}

theorem names_entriesOf_tablesOf (value : Section → Field → Value) :
    (Toml.entriesOf (tablesOf value)).names = sections.map (·.key) := by
  simp [Toml.names_entriesOf, tablesOf]

theorem givenFor?_tablesOf (value : Section → Field → Value) (hs : s ∈ sections) :
    givenFor? s (Toml.entriesOf (tablesOf value)) = some (.mapping (s.filled (value s))) := by
  have hmem : (s.key, .mapping (s.filled (value s))) ∈ Toml.entriesOf (tablesOf value) := by
    simp only [Toml.entriesOf, tablesOf, List.mem_map]
    exact ⟨(s.key, s.filled (value s)), ⟨s, hs, rfl⟩, rfl⟩
  have hget := Entries.get?_of_mem (names_entriesOf_tablesOf value ▸ nodup_keys) hmem
  rw [givenFor?, hget]
  rfl

theorem fieldsOf_tablesOf (value : Section → Field → Value) (hs : s ∈ sections) :
    s.fieldsOf (Toml.entriesOf (tablesOf value)) = s.filled (value s) := by
  rw [Section.fieldsOf, givenFor?_tablesOf value hs, dictionaryOf]

theorem nested_tablesOf (value : Section → Field → Value) :
    Nested (Toml.entriesOf (tablesOf value)) := by
  intro s hs v hv
  rw [givenFor?_tablesOf value hs] at hv
  exact ⟨_, (Option.some.inj hv).symm⟩

theorem isSome_inAnyCase?_key :
    ∀ s ∈ sections, (inAnyCase? (sections.map (·.key)) s.key).isSome := by
  decide

theorem onlyKnown_tablesOf (value : Section → Field → Value) :
    OnlyKnown (Toml.entriesOf (tablesOf value)) := by
  refine ⟨fun name hname => ?_, fun s hs name hname => ?_⟩
  · rw [names_entriesOf_tablesOf] at hname
    obtain ⟨s, hs, rfl⟩ := List.mem_map.1 hname
    exact isSome_inAnyCase?_key s hs
  · rwa [fieldsOf_tablesOf value hs, names_filled] at hname

theorem onlyKnown_nil : OnlyKnown [] := by
  decide

/-- The tables of validated settings give these settings, whatever the variables hold. -/
theorem give_tablesOf (hlib : lib.Rules)
    (hvalue : ∀ s ∈ sections, ∀ field ∈ s.fields, lib.Holds field (value s field))
    (type : RecordType) (assigned : List (String × String)) :
    (Layers.mk [] (Toml.entriesOf (tablesOf value)) assigned).Give lib type
      (settingsOf type value) := by
  refine ⟨onlyKnown_nil, onlyKnown_tablesOf value, value, fun s hs field hfield => ?_, rfl⟩
  have hchosen : (Layers.mk [] (Toml.entriesOf (tablesOf value)) assigned).chosen? s field =
      some (value s field) := by
    have hnone : (s.fieldsOf []).get? field.name = none := rfl
    rw [Layers.chosen?, hnone, fieldsOf_tablesOf value hs, get?_filled hs hfield]
    rfl
  rw [hchosen]
  exact (hlib.settles s hs field hfield).again _ (hvalue s hs field hfield)

/-- The file that validated settings were written to is loaded as these settings. -/
theorem load_fileText (hlib : lib.Rules)
    (hvalue : ∀ s ∈ sections, ∀ field ∈ s.fields, lib.Holds field (value s field))
    (hpath : path.namedUser? = none) (hat : w.files.at? path = some (.file (fileText value)))
    (hassigned : OnlyFields w.assigned) :
    (load lib path).run.run w =
      (.ok (settingsOf ⟨fileRecordName, w.loads + 1⟩ value), { w with loads := w.loads + 1 }) := by
  have htables : TablesAt w.files path (Toml.entriesOf (tablesOf value)) := by
    unfold TablesAt
    rw [hat]
    exact read_fileText hlib hvalue
  have hsome : (w.files.at? path).isSome := by rw [hat]; rfl
  exact (load_eq_ok_iff hlib hassigned hpath hsome htables (nested_tablesOf value)).2
    (give_tablesOf hlib hvalue _ _)

/-- Settings that were exported are loaded again, in whatever surroundings the file is left as it is
and the variables hold single fields at most. -/
theorem load_exportTo (hlib : lib.Rules) (hs : Validated lib settings)
    (hpath : path.namedUser? = none)
    (hexport : (exportTo lib settings path).run.run u = (.ok (), v))
    (hfile : w.files.at? path = v.files.at? path) (hassigned : OnlyFields w.assigned) :
    ∃ loaded x, (load lib path).run.run w = (.ok loaded, x) ∧
      ∀ s ∈ sections, loaded.member? s.key = settings.member? s.key := by
  obtain ⟨type, value, rfl, hvalue⟩ := hs
  obtain ⟨text, htext, hat⟩ := of_exportTo hexport
  rw [serialize_settingsOf hlib hvalue] at htext
  cases htext
  refine ⟨_, _, load_fileText hlib hvalue hpath (hfile.trans hat) hassigned, fun s hs => ?_⟩
  rw [member?_settingsOf hs, member?_settingsOf hs]

/-- What settings may be made of: the category has a quotation mark, a backslash, a control
character and a letter beyond the first 128 characters. -/
def oddSections : Entries := [
  ("tabs", .mapping [("category", .str " \"\\\x07\u00e9"), ("group_consecutive", .int 1)]),
  ("logging", .mapping [("level", .str "debug ")])]

def oddSettings : Value :=
  .record ⟨recordName, 0⟩ [
    ("tabs", .record ⟨"TabsSettings", 0⟩ [
      ("category", .str "\"\\\x07\u00e9"), ("strategy", .str "interleaved"),
      ("group_consecutive", .bool true)]),
    ("logging", .record ⟨"LoggingSettings", 0⟩ [("level", .str "DEBUG")])]

theorem readSettings_oddSections :
    Libraries.standard.readSettings ⟨recordName, 0⟩ oddSections = .ok oddSettings := by
  rfl

theorem validated_oddSettings : Validated .standard oddSettings := by
  refine validated_of_readSettings rules_standard (fun s hs v hv => ?_) readSettings_oddSections
  simp only [sections, List.mem_cons, List.not_mem_nil, or_false] at hs
  obtain rfl | rfl := hs <;> cases hv <;> rfl

def emptyFolder : Surroundings where
  files := { Files.Store.empty with working := ["home", "here"] }
  assigned := []
  homes := []
  loads := 0

/-- The odd settings come back from a file in a folder that is made for it, which is neither below
the working folder when they are written nor when they are loaded, though variables name a blank
category and an unknown level then. -/
theorem load_exportTo_odd :
    let path : Files.Path := .ofString "/conf/odd.toml"
    let assigned := [("doctree_Tabs__Category", " "), ("DOCTREE_LOGGING__LEVEL", "loud")]
    ∃ files loaded x, (exportTo .standard oddSettings path).run.run emptyFolder =
        (.ok (), { emptyFolder with files := files }) ∧
      (load .standard path).run.run ⟨files, assigned, [], 3⟩ = (.ok loaded, x) ∧
      loaded.member? "tabs" = oddSettings.member? "tabs" := by
  intro path assigned
  obtain ⟨text, htext⟩ := exists_serialize rules_standard validated_oddSettings
  have hwrite : emptyFolder.files.writeBelow path "" = .ok { emptyFolder.files with
      entries := [(["conf", "odd.toml"], .file ""), (["conf"], .folder)] } := by rfl
  obtain ⟨files, hfiles⟩ := exportTo_of_writeBelow (w := emptyFolder) htext hwrite fun _ => rfl
  have hcategory : Text.lower "doctree_Tabs__Category".toList =
      leafName tabsSection tabsSection.fields[0] := by decide
  have hlevel : Text.lower "DOCTREE_LOGGING__LEVEL".toList =
      leafName loggingSection loggingSection.fields[0] := by decide
  have hassigned : OnlyFields assigned := by
    intro entry hentry _
    simp only [assigned, List.mem_cons, List.not_mem_nil, or_false] at hentry
    obtain rfl | rfl := hentry
    · exact ⟨tabsSection, .head _, _, List.getElem_mem _, hcategory⟩
    · exact ⟨loggingSection, .tail _ (.head _), _, List.getElem_mem _, hlevel⟩
  obtain ⟨loaded, x, hload, hsame⟩ := load_exportTo (w := ⟨files, assigned, [], 3⟩) rules_standard
    validated_oddSettings rfl hfiles rfl hassigned
  exact ⟨files, loaded, x, hfiles, hload, hsame tabsSection (.head _)⟩

/-- Below a home folder settings do not come back: they are written below a folder that is named by
a tilde, and loaded from below the home folder, where they are not. -/
theorem not_reloaded_belowHome :
    ¬ ∀ (settings : Value) (path : Files.Path) (u v w : Surroundings),
      Validated .standard settings →
      (exportTo .standard settings path).run.run u = (.ok (), v) →
      w.files.at? path = v.files.at? path → OnlyFields w.assigned →
      ∃ loaded x, (load .standard path).run.run w = (.ok loaded, x) ∧
        ∀ s ∈ sections, loaded.member? s.key = settings.member? s.key := by
  intro hall
  obtain ⟨text, htext⟩ := exists_serialize rules_standard validated_oddSettings
  let path : Files.Path := .ofString "~/odd.toml"
  have hwrite : emptyFolder.files.writeBelow path "" = .ok { emptyFolder.files with
      entries := [(["home", "here", "~", "odd.toml"], .file ""),
        (["home", "here", "~"], .folder)] } := by rfl
  let files : Files.Store := { emptyFolder.files with
      entries := [(["home", "here", "~", "odd.toml"], .file text),
        (["home", "here", "~"], .folder)] }
  let w : Surroundings := ⟨files, [("HOME", "home")], [], 0⟩
  have hexport : (exportTo .standard oddSettings path).run.run emptyFolder =
      (.ok (), { emptyFolder with files := files }) :=
    exportTo_of_write htext hwrite rfl
  have hassigned : OnlyFields w.assigned := by
    intro entry hentry hstart
    obtain rfl : entry = ("HOME", "home") := by simpa [w] using hentry
    exact absurd hstart (by decide)
  obtain ⟨loaded, x, hload, hsame⟩ := hall oddSettings path _ _ w validated_oddSettings hexport rfl
    hassigned
  have hfile : Libraries.standard.ofFile { w with loads := 1 } path = .ok [] := by rfl
  have hvariables : Libraries.standard.ofVariables w.assigned = .ok [] := by rfl
  have hdefault : (load .standard path).run.run w = (.ok _, _) :=
    load_of_make rfl ((make_eq hfile hvariables).trans rfl)
  rw [hdefault] at hload
  cases hload
  have hcategory : some (Value.str "tabs") = some (.str "\"\\\x07\u00e9") :=
    congrArg (fun tabs : Option Value => tabs.bind (·.member? "category"))
      (hsame tabsSection (.head _))
  exact absurd (Value.str.inj (Option.some.inj hcategory)) (by decide)

end MarkdownTree.Settings
