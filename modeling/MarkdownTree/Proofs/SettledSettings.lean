import Mathlib.Data.List.Nodup
import MarkdownTree.Proofs.LibraryRules

/-!
Reading settings settles them: what a field was read as is read as itself again, and it is a text or
a flag. So the sections of settings are flat tables, which can be written and are read back from
what was written.
-/

namespace MarkdownTree

namespace Entries

theorem get?_of_mem {entries : Entries} (h : entries.names.Nodup) {entry : String × Value}
    (hentry : entry ∈ entries) : entries.get? entry.1 = some entry.2 := by
  induction entries with
  | nil => cases hentry
  | cons head entries ih =>
    obtain ⟨key, v⟩ := head
    obtain ⟨hkey, hnodup⟩ := List.nodup_cons.mp h
    rw [get?_cons]
    obtain heq | hrest := List.mem_cons.mp hentry
    · rw [heq, if_pos rfl]
    · have hne : key ≠ entry.1 := by
        rintro rfl
        exact hkey (List.mem_map.mpr ⟨entry, hrest, rfl⟩)
      rw [if_neg hne, ih hnodup hrest]

end Entries

namespace Settings

variable {lib : Libraries} {s : Section} {field : Field} {u v w : Value}

theorem Libraries.Reads.unique (h : lib.Reads field u v) (h' : lib.Reads field u w) : v = w := by
  obtain ⟨read, hread, hcheck⟩ := h
  obtain ⟨read', hread', hcheck'⟩ := h'
  rw [hread] at hread'
  cases hread'
  rw [hcheck] at hcheck'
  exact Except.ok.inj hcheck'

namespace Libraries

/-- The values that a field can get. -/
def Holds (lib : Libraries) (field : Field) (v : Value) : Prop :=
  ∃ chosen?, lib.Gets field chosen? v

theorem holds_iff : lib.Holds field v ↔ (∃ u, lib.Reads field u v) ∨ field.default = some v := by
  constructor
  · rintro ⟨_ | u, h⟩
    · exact .inr h
    · exact .inl ⟨u, h⟩
  · rintro (⟨u, h⟩ | h)
    · exact ⟨some u, h⟩
    · exact ⟨none, h⟩

/-- A field of a bare name whose values are texts and flags that are read as themselves. -/
structure Settles (lib : Libraries) (field : Field) : Prop where
  bare : Toml.isBarePart field.name = true
  plain (v : Value) (h : lib.Holds field v) : Toml.IsPlain v
  again (v : Value) (h : lib.Holds field v) : lib.Reads field v v

namespace Rules

variable (hlib : lib.Rules)

include hlib

/-- A choice is settled if its options are left alone when they are prepared. -/
theorem settles_choice {options : List String} {option : String}
    (hname : Toml.isBarePart field.name = true) (htype : field.type = .choice options)
    (hdefault : field.default = some (.str option)) (hoption : option ∈ options)
    (hprepare : ∀ o ∈ options, field.prepare (.str o) = .str o) (hcheck : field.check = .ok) :
    lib.Settles field := by
  have hholds : ∀ v, lib.Holds field v → ∃ o ∈ options, v = .str o := by
    intro v hv
    obtain ⟨u, w, hread, hw⟩ | hv := holds_iff.1 hv
    · rw [htype, hlib.choice] at hread
      obtain ⟨o, ho, -, rfl⟩ := hread
      rw [hcheck] at hw
      exact ⟨o, ho, (Except.ok.inj hw).symm⟩
    · rw [hdefault] at hv
      exact ⟨option, hoption, (Option.some.inj hv).symm⟩
  refine ⟨hname, fun v hv => ?_, fun v hv => ?_⟩ <;> obtain ⟨o, ho, rfl⟩ := hholds v hv
  · exact .text o
  · refine ⟨.str o, ?_, by rw [hcheck]⟩
    rw [hprepare o ho, htype, hlib.choice]
    exact ⟨o, ho, rfl, rfl⟩

theorem settles_flag {b : Bool} (hname : Toml.isBarePart field.name = true)
    (htype : field.type = .flag) (hdefault : field.default = some (.bool b))
    (hprepare : field.prepare = id) (hcheck : field.check = .ok) : lib.Settles field := by
  have hholds : ∀ v, lib.Holds field v → ∃ c, v = .bool c := by
    intro v hv
    obtain ⟨u, w, hread, hw⟩ | hv := holds_iff.1 hv
    · rw [htype] at hread
      obtain ⟨c, rfl⟩ := hlib.of_flag _ _ hread
      rw [hcheck] at hw
      exact ⟨c, (Except.ok.inj hw).symm⟩
    · rw [hdefault] at hv
      exact ⟨b, (Option.some.inj hv).symm⟩
  refine ⟨hname, fun v hv => ?_, fun v hv => ?_⟩ <;> obtain ⟨c, rfl⟩ := hholds v hv
  · exact .flag c
  · refine ⟨.bool c, ?_, by rw [hcheck]⟩
    rw [hprepare, htype]
    exact hlib.flag c

/-- A text is settled if checking it again leaves it alone. -/
theorem settles_text {t : String} (hname : Toml.isBarePart field.name = true)
    (htype : field.type = .text) (hdefault : field.default = some (.str t))
    (hprepare : field.prepare = id)
    (hcheck : ∀ a v, field.check (.str a) = .ok v →
      ∃ b, v = .str b ∧ field.check (.str b) = .ok (.str b))
    (ht : field.check (.str t) = .ok (.str t)) : lib.Settles field := by
  have hholds : ∀ v, lib.Holds field v → ∃ b, v = .str b ∧ field.check (.str b) = .ok (.str b) := by
    intro v hv
    obtain ⟨u, w, hread, hw⟩ | hv := holds_iff.1 hv
    · rw [htype, hlib.text] at hread
      obtain ⟨a, -, rfl⟩ := hread
      exact hcheck a v hw
    · rw [hdefault] at hv
      exact ⟨t, (Option.some.inj hv).symm, ht⟩
  refine ⟨hname, fun v hv => ?_, fun v hv => ?_⟩ <;> obtain ⟨b, rfl, hb⟩ := hholds v hv
  · exact .text b
  · refine ⟨.str b, ?_, hb⟩
    rw [hprepare, htype, hlib.text]
    exact ⟨b, rfl, rfl⟩

end Rules

end Libraries

theorem trim_eq_self {s : List Char} (h : s.any Text.isBlank = false) : Text.trim s = s := by
  have hstart (t : List Char) (ht : ∀ c ∈ t, Text.isBlank c = false) :
      t.dropWhile Text.isBlank = t := by
    cases t with
    | nil => rfl
    | cons c t => simp [ht c (.head _)]
  have hnone : ∀ c ∈ s, Text.isBlank c = false := by simpa using h
  rw [Text.trim, Text.trimStart, hstart s hnone, Text.trimEnd,
    hstart s.reverse fun c hc => hnone c (List.mem_reverse.mp hc), List.reverse_reverse]

/-- A category was checked: it is a word without blanks, and checking it again leaves it alone. -/
theorem checkCategory_eq_ok (s : String) (v : Value) (h : checkCategory (.str s) = .ok v) :
    ∃ t, v = .str t ∧ checkCategory (.str t) = .ok (.str t) := by
  simp only [checkCategory] at h ⊢
  cases hempty : (Text.trim s.toList).isEmpty
  · cases hblank : (Text.trim s.toList).any Text.isBlank
    · simp only [hempty, hblank, Bool.false_eq_true, if_false] at h
      cases h
      refine ⟨_, rfl, ?_⟩
      simp only [String.toList_ofList, trim_eq_self hblank, hempty, hblank, Bool.false_eq_true,
        if_false]
    · simp [hempty, hblank] at h
  · simp [hempty] at h

theorem normalizeLevel_level :
    ∀ level ∈ ["DEBUG", "INFO", "WARNING", "ERROR", "CRITICAL"],
      normalizeLevel (.str level) = .str level := by
  have hlevels : ∀ level ∈ ["DEBUG", "INFO", "WARNING", "ERROR", "CRITICAL"],
      String.ofList (Text.upper (Text.trim level.toList)) = level := by
    decide
  exact fun level hlevel => congrArg Value.str (hlevels level hlevel)

theorem Libraries.Rules.settles (hlib : lib.Rules) :
    ∀ s ∈ sections, ∀ field ∈ s.fields, lib.Settles field := by
  simp only [sections, tabsSection, loggingSection, List.forall_mem_cons]
  refine ⟨⟨?_, ?_, ?_, by simp⟩, ⟨?_, by simp⟩, by simp⟩
  · exact hlib.settles_text (by decide) rfl rfl rfl checkCategory_eq_ok rfl
  · exact hlib.settles_choice (by decide) rfl rfl (by decide) (fun _ _ => rfl) rfl
  · exact hlib.settles_flag (by decide) rfl rfl rfl rfl
  · exact hlib.settles_choice (by decide) rfl rfl (by decide) normalizeLevel_level rfl

theorem nodup_keys : (sections.map (·.key)).Nodup := by
  decide

theorem nodup_fields : ∀ s ∈ sections, (s.fields.map (·.name)).Nodup := by
  decide

theorem bare_keys : ∀ s ∈ sections, Toml.isBarePart s.key = true := by
  decide

/-- Settings that were validated: each field has a value that it can get. -/
def Validated (lib : Libraries) (settings : Value) : Prop :=
  ∃ (type : RecordType) (value : Section → Field → Value), settings = settingsOf type value ∧
    ∀ s ∈ sections, ∀ field ∈ s.fields, lib.Holds field (value s field)

/-- Settings are validated when they are read. -/
theorem validated_of_readSettings (hlib : lib.Rules) {type : RecordType} {given : Entries}
    {settings : Value} (hgiven : Unread given) (h : lib.readSettings type given = .ok settings) :
    Validated lib settings := by
  obtain ⟨-, -, -, value, hvalue, rfl⟩ := (hlib.readSettings _ _ _ hgiven).1 h
  exact ⟨type, value, rfl, fun s hs field hfield => ⟨_, hvalue s hs field hfield⟩⟩

theorem names_filled (value : Field → Value) : (s.filled value).names = s.fields.map (·.name) := by
  simp [Section.filled, Entries.names]

theorem get?_filled (hs : s ∈ sections) (hfield : field ∈ s.fields) (value : Field → Value) :
    (s.filled value).get? field.name = some (value field) :=
  Entries.get?_of_mem (names_filled value ▸ nodup_fields s hs)
    (List.mem_map.mpr ⟨field, hfield, rfl⟩)

/-- A section of settings. -/
theorem member?_settingsOf {type : RecordType} {value : Section → Field → Value}
    (hs : s ∈ sections) :
    (settingsOf type value).member? s.key = some (.record s.type (s.filled (value s))) := by
  have hnames : Entries.names
      (sections.map fun s => (s.key, .record s.type (s.filled (value s)))) =
      sections.map (·.key) := by
    simp [Entries.names]
  exact Entries.get?_of_mem (hnames ▸ nodup_keys) (List.mem_map.mpr ⟨s, hs, rfl⟩)

theorem filled_of_settingsOf_eq {type other : RecordType} {value value' : Section → Field → Value}
    (h : settingsOf type value = settingsOf other value') (hs : s ∈ sections) :
    s.filled (value s) = s.filled (value' s) := by
  have hmember := congrArg (fun settings : Value => settings.member? s.key) h
  simp only [member?_settingsOf hs] at hmember
  exact (Value.record.inj (Option.some.inj hmember)).2

theorem plainEntries_eq_map (entries : Entries) :
    Value.plainEntries entries = entries.map fun entry => (entry.1, entry.2.plain) := by
  induction entries with
  | nil => rfl
  | cons entry entries ih => simp [Value.plainEntries, ih]

theorem plain_of_isPlain {v : Value} (h : Toml.IsPlain v) : v.plain = v := by
  cases h <;> rfl

theorem plainEntries_of_flat {fields : Entries} (h : Toml.Flat fields) :
    Value.plainEntries fields = fields := by
  rw [plainEntries_eq_map]
  calc fields.map (fun entry => (entry.1, entry.2.plain))
      = fields.map id := List.map_congr_left fun entry hentry => by
        rw [plain_of_isPlain (h.plain entry hentry), id]
    _ = fields := List.map_id fields

theorem writtenEntry?_flat {name : String} {fields : Entries} (h : Toml.Flat fields) :
    writtenEntry? (name, .mapping fields) = some (name, .mapping fields) := by
  rw [ writtenEntry?, List.filter_eq_self.mpr]
  intro entry hentry
  obtain ⟨part, v⟩ := entry
  have hv : Toml.IsPlain v := h.plain _ hentry
  cases hv <;> rfl

def tablesOf (value : Section → Field → Value) : List (String × Entries) :=
  sections.map fun s => (s.key, s.filled (value s))

def fileHeader : String :=
  "# " ++ fileComment ++ "\n\n"

section Written

variable {type : RecordType} {value : Section → Field → Value}

theorem writtenEntries_eq (h : ∀ s ∈ sections, Toml.Flat (s.filled (value s))) :
    writtenEntries (settingsOf type value) = Toml.entriesOf (tablesOf value) := by
  have hplain : Value.plainEntries
      (sections.map fun s => (s.key, .record s.type (s.filled (value s)))) =
      sections.map fun s => (s.key, .mapping (s.filled (value s))) := by
    rw [plainEntries_eq_map, List.map_map]
    refine List.map_congr_left fun s hs => ?_
    simp only [Function.comp_apply, Value.plain, plainEntries_of_flat (h s hs)]
  have hwritten : (sections.map fun s => (s.key, Value.mapping (s.filled (value s)))).filterMap
      writtenEntry? = sections.map fun s => (s.key, .mapping (s.filled (value s))) := by
    rw [List.filterMap_map, ← List.filterMap_eq_map]
    exact List.filterMap_congr fun s hs => writtenEntry?_flat (h s hs)
  simp only [writtenEntries, settingsOf, Value.plain, hplain, hwritten, Toml.entriesOf, tablesOf,
    List.map_map]
  rfl

theorem Libraries.Rules.flat_filled (hlib : lib.Rules) (hs : s ∈ sections) {value : Field → Value}
    (h : ∀ field ∈ s.fields, lib.Holds field (value field)) : Toml.Flat (s.filled value) := by
  refine ⟨fun entry hentry => ?_, fun entry hentry => ?_,
    (names_filled value).symm ▸ nodup_fields s hs⟩ <;>
    obtain ⟨field, hfield, rfl⟩ := List.mem_map.mp hentry
  · exact (hlib.settles s hs field hfield).bare
  · exact (hlib.settles s hs field hfield).plain _ (h field hfield)

theorem flatDocument_tablesOf (h : ∀ s ∈ sections, Toml.Flat (s.filled (value s))) :
    Toml.FlatDocument (tablesOf value) := by
  refine ⟨?_, ?_, ?_⟩
  · simpa [tablesOf] using bare_keys
  · simpa [tablesOf] using h
  · simp only [tablesOf, List.map_map]
    exact nodup_keys

/-- Flat tables behind the comment of a settings file are read back. -/
theorem read_tableTexts {tables : List (String × Entries)} (h : Toml.FlatDocument tables) :
    Toml.read (fileHeader ++ Toml.tableTexts false tables) = .ok (Toml.entriesOf tables) := by
  have hlegal : " Configuration file".toList.all
      (fun c => !Toml.isIllegal c && c != '\n') = true := by decide
  have hheader : fileHeader = "#" ++ " Configuration file" ++ "\n\n" := by decide
  rw [hheader]
  refine Toml.read_tableTexts h fun c hc => ?_
  simpa using List.all_eq_true.mp hlegal c hc

def fileText (value : Section → Field → Value) : String :=
  fileHeader ++ Toml.tableTexts false (tablesOf value)

variable (hlib : lib.Rules)
  (hvalue : ∀ s ∈ sections, ∀ field ∈ s.fields, lib.Holds field (value s field))

include hlib hvalue

/-- Settings that were validated are written as flat tables. -/
theorem serialize_settingsOf : serialize lib (settingsOf type value) = .ok (fileText value) := by
  have hflat := fun s hs => hlib.flat_filled hs (hvalue s hs)
  rw [serialize, writtenEntries_eq hflat]
  exact hlib.documentText _ _ (flatDocument_tablesOf hflat)

/-- What they are written as is read back. -/
theorem read_fileText : Toml.read (fileText value) = .ok (Toml.entriesOf (tablesOf value)) :=
  read_tableTexts (flatDocument_tablesOf fun s hs => hlib.flat_filled hs (hvalue s hs))

end Written

theorem exists_serialize (hlib : lib.Rules) {settings : Value} (h : Validated lib settings) :
    ∃ text, serialize lib settings = .ok text := by
  obtain ⟨type, value, rfl, hvalue⟩ := h
  exact ⟨_, serialize_settingsOf hlib hvalue⟩

end Settings

end MarkdownTree
