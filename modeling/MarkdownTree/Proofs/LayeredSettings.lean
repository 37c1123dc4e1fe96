import MarkdownTree.Proofs.KeyedDocuments
import MarkdownTree.Proofs.SettledSettings

/-!
The precedence of the sources of settings. Dictionaries are laid over dictionaries, section by
section and field by field; so the value that counts for a field is the one of the first source that
has it, and only that one is read. Main statement: settings are made exactly if no source has a name
that is none of the settings, and every field can be read from what counts for it.
-/

namespace MarkdownTree

theorem Entries.mem_names_iff {entries : Entries} {name : String} :
    name ∈ entries.names ↔ (entries.get? name).isSome := by
  constructor
  · intro h
    by_contra hnone
    obtain ⟨entry, hentry, rfl⟩ := List.mem_map.1 h
    have hfind := List.find?_eq_none.1 (Option.map_eq_none_iff.1 (Option.not_isSome_iff_eq_none.1
      hnone)) entry hentry
    exact hfind (beq_self_eq_true _)
  · intro h
    obtain ⟨v, hv⟩ := Option.isSome_iff_exists.1 h
    exact List.mem_map_of_mem (mem_of_get?_eq hv)

namespace Settings

variable {lib : Libraries} {s : Section} {field : Field} {base upper given tables : Entries}
  {name : String} {v : Value} {type : RecordType} {settings : Value}

/-- Entries that can be laid over others: dictionaries of sections that have each name once. -/
structure Layer (given : Entries) : Prop where
  sectioned : Sectioned given
  nodup : given.names.Nodup
  fields (s : Section) (hs : s ∈ sections) : (s.fieldsIn given).names.Nodup

theorem layer_nil : Layer [] :=
  ⟨fun _ _ _ hv => (by cases hv), List.nodup_nil, fun _ _ => List.nodup_nil⟩

theorem fieldsIn_of_get? {inner : Entries} (h : given.get? s.key = some (.mapping inner)) :
    s.fieldsIn given = inner := by
  rw [Section.fieldsIn, h, dictionaryOf]

theorem fieldsIn_of_get?_none (h : given.get? s.key = none) : s.fieldsIn given = [] := by
  rw [Section.fieldsIn, h]
  rfl

theorem OfSections.sectioned (h : OfSections given) : Sectioned given := by
  intro s hs v hv
  obtain ⟨t, ht, -, inner, heq, -⟩ := h _ (Entries.mem_of_get?_eq hv)
  exact ⟨inner, heq⟩

theorem OfSections.names (h : OfSections given) :
    ∀ name ∈ given.names, name ∈ sections.map (·.key) := by
  intro name hname
  obtain ⟨entry, hentry, rfl⟩ := List.mem_map.1 hname
  obtain ⟨s, hs, hkey, -⟩ := h entry hentry
  exact List.mem_map.2 ⟨s, hs, hkey.symm⟩

theorem OfSections.names_fieldsIn (h : OfSections given) (hs : s ∈ sections) :
    ∀ name ∈ (s.fieldsIn given).names, name ∈ s.fields.map (·.name) := by
  cases hget : given.get? s.key with
  | none =>
    rw [fieldsIn_of_get?_none hget]
    exact fun name hname => absurd hname List.not_mem_nil
  | some v =>
    obtain ⟨t, ht, hkey, inner, heq, hinner⟩ := h _ (Entries.mem_of_get?_eq hget)
    obtain rfl := List.inj_on_of_nodup_map nodup_keys ht hs hkey.symm
    obtain rfl : v = .mapping inner := heq
    rwa [fieldsIn_of_get? hget]

namespace Libraries

theorem overlaid_none_left (upper? : Option Value) : lib.overlaid none upper? = upper? := by
  cases upper? <;> rfl

theorem overlaid_none_right (base? : Option Value) : lib.overlaid base? none = base? := by
  unfold overlaid
  split <;> simp_all

theorem isSome_overlaid {base? upper? : Option Value} :
    (lib.overlaid base? upper?).isSome ↔ base?.isSome ∨ upper?.isSome := by
  unfold overlaid
  split
  · simp
  · cases upper? <;> simp

/-- A field that reads no dictionary gets the same from a value over another one as from the first
of them: only dictionaries are changed by what lies under them. -/
theorem gets_overlaid (hread : ∀ inner, ¬ lib.Reads field (.mapping inner) v)
    (base? upper? rest? : Option Value) :
    lib.Gets field ((lib.overlaid base? upper?).or rest?) v ↔
      lib.Gets field ((upper?.or base?).or rest?) v := by
  unfold overlaid
  split
  · exact iff_of_false (hread _) (hread _)
  · rfl

end Libraries

section Update
variable (hlib : lib.Rules) (hbase : Sectioned base) (hupper : Layer upper)

include hlib

theorem mem_names_update (h : upper.names.Nodup) :
    name ∈ (lib.update base upper).names ↔ name ∈ base.names ∨ name ∈ upper.names := by
  simp only [Entries.mem_names_iff, hlib.get?_update base upper h, Libraries.isSome_overlaid]

include hbase hupper

/-- What stands under the name of a section in entries laid over others. -/
theorem get?_key_update (hs : s ∈ sections) :
    (∃ inner other, base.get? s.key = some (.mapping other) ∧
      upper.get? s.key = some (.mapping inner) ∧
      (lib.update base upper).get? s.key = some (.mapping (lib.update other inner))) ∨
    base.get? s.key = none ∧ (lib.update base upper).get? s.key = upper.get? s.key ∨
    upper.get? s.key = none ∧ (lib.update base upper).get? s.key = base.get? s.key := by
  rw [hlib.get?_update base upper hupper.nodup]
  cases hb : base.get? s.key with
  | none => exact .inr (.inl ⟨rfl, Libraries.overlaid_none_left _⟩)
  | some old =>
    cases hu : upper.get? s.key with
    | none => exact .inr (.inr ⟨rfl, Libraries.overlaid_none_right _⟩)
    | some new =>
      obtain ⟨other, rfl⟩ := hbase s hs old hb
      obtain ⟨inner, rfl⟩ := hupper.sectioned s hs new hu
      exact .inl ⟨inner, other, rfl, rfl, rfl⟩

theorem sectioned_update : Sectioned (lib.update base upper) := by
  intro s hs v hv
  obtain ⟨inner, other, -, -, hget⟩ | ⟨-, hget⟩ | ⟨-, hget⟩ :=
    get?_key_update hlib hbase hupper hs <;> rw [hget] at hv
  · exact ⟨_, (Option.some.inj hv).symm⟩
  · exact hupper.sectioned s hs v hv
  · exact hbase s hs v hv

/-- Each section is laid over the one of its name, field by field. -/
theorem get?_fieldsIn_update (hs : s ∈ sections) (name : String) :
    (s.fieldsIn (lib.update base upper)).get? name =
      lib.overlaid ((s.fieldsIn base).get? name) ((s.fieldsIn upper).get? name) := by
  obtain ⟨inner, other, hb, hu, hget⟩ | ⟨hb, hget⟩ | ⟨hu, hget⟩ :=
    get?_key_update hlib hbase hupper hs
  · have hinner := hupper.fields s hs
    rw [fieldsIn_of_get? hu] at hinner
    rw [fieldsIn_of_get? hget, fieldsIn_of_get? hb, fieldsIn_of_get? hu,
      hlib.get?_update other inner hinner]
  · rw [fieldsIn_of_get?_none hb, Entries.get?_nil, Libraries.overlaid_none_left,
      Section.fieldsIn, hget, Section.fieldsIn]
  · rw [fieldsIn_of_get?_none hu, Entries.get?_nil, Libraries.overlaid_none_right, Section.fieldsIn,
      hget, Section.fieldsIn]

omit hbase in
/-- Layers that lie on each other are a layer. -/
theorem layer_update (hbase : Layer base) : Layer (lib.update base upper) := by
  refine ⟨sectioned_update hlib hbase.sectioned hupper,
    hlib.nodup_update _ _ hbase.nodup, fun s hs => ?_⟩
  obtain ⟨inner, other, hb, -, hget⟩ | ⟨-, hget⟩ | ⟨-, hget⟩ :=
    get?_key_update hlib hbase.sectioned hupper hs
  · have hother := hbase.fields s hs
    rw [fieldsIn_of_get? hb] at hother
    rw [fieldsIn_of_get? hget]
    exact hlib.nodup_update _ _ hother
  · rw [Section.fieldsIn, hget]
    exact hupper.fields s hs
  · rw [Section.fieldsIn, hget]
    exact hbase.fields s hs

end Update

/-- Where no source has read a section, none is read when they lie on each other. -/
theorem Libraries.Rules.unread_update (hlib : lib.Rules) (hbase : Unread base)
    (hupper : Unread upper) (hnodup : upper.names.Nodup) : Unread (lib.update base upper) := by
  intro s hs v hv
  rw [hlib.get?_update base upper hnodup] at hv
  unfold Libraries.overlaid at hv
  split at hv
  · cases hv
    rfl
  · rcases Option.or_eq_some_iff.1 hv with hown | ⟨-, hother⟩
    · exact hupper s hs v hown
    · exact hbase s hs v hother

/-- What a file and variables hold is read together, where nothing is given. -/
theorem Libraries.Rules.unread_merge (hlib : lib.Rules) {w : Surroundings} {path : Files.Path}
    {fromFile fromVariables : Entries} (hfile : lib.ofFile w path = .ok fromFile)
    (hvariables : lib.ofVariables w.assigned = .ok fromVariables) :
    Unread (lib.merge [lib.align [], fromFile, fromVariables]) := by
  obtain ⟨hnodup, hunread⟩ := hlib.unread_ofFile _ _ _ hfile
  have halign := hlib.align [] List.nodup_nil
  have hnothing : Unread (lib.align []) := by
    intro s hs v hv
    rw [halign.get? s hs] at hv
    cases hv
  have hnil : Unread [] := fun _ _ _ hv => (by cases hv)
  have hown := hlib.unread_update hnothing hnil List.nodup_nil
  have howns := hlib.nodup_update (lib.align []) [] halign.nodup
  exact hlib.unread_update (hlib.unread_ofVariables _ _ hvariables)
    (hlib.unread_update hunread hown howns) (hlib.nodup_update _ _ hnodup)

/-- The fields that dictionaries hold for a section, under its name in any case. -/
def Section.fieldsOf (s : Section) (given : Entries) : Entries :=
  dictionaryOf (givenFor? s given)

/-- Dictionaries are given for the sections. -/
def Nested (given : Entries) : Prop :=
  ∀ s ∈ sections, ∀ v, givenFor? s given = some v → ∃ inner, v = .mapping inner

/-- Nothing is given but sections and fields of these. -/
structure OnlyKnown (given : Entries) : Prop where
  sections (name : String) (h : name ∈ given.names) :
    (inAnyCase? (Settings.sections.map (·.key)) name).isSome
  fields (s : Section) (hs : s ∈ Settings.sections) (name : String)
    (h : name ∈ (s.fieldsOf given).names) : name ∈ s.fields.map (·.name)

theorem onlyKnown_iff : OnlyKnown given ↔
    (∀ name ∈ given.names, (inAnyCase? (sections.map (·.key)) name).isSome) ∧
      ∀ s ∈ sections, ∀ name ∈ (s.fieldsOf given).names, name ∈ s.fields.map (·.name) :=
  ⟨fun h => ⟨h.sections, h.fields⟩, fun h => ⟨h.1, h.2⟩⟩

instance decidableOnlyKnown (given : Entries) : Decidable (OnlyKnown given) :=
  decidable_of_iff _ onlyKnown_iff.symm

theorem nodup_names_fieldsOf (h : Value.isKeyedEntries given = true) :
    (s.fieldsOf given).names.Nodup := by
  have hvalue : ∀ v, givenFor? s given = some v → v.isKeyed = true := by
    intro v hv
    rcases Option.or_eq_some_iff.1 hv with hown | ⟨-, hother⟩
    · exact Entries.isKeyed_of_get? h hown
    · obtain ⟨entry, hentry, rfl⟩ := Option.map_eq_some_iff.1 hother
      exact Value.isKeyed_of_mem h (List.mem_of_find?_eq_some hentry)
  unfold Section.fieldsOf dictionaryOf
  split
  · next inner hinner => exact Entries.nodup_names_of_isKeyed (hvalue _ hinner)
  · exact List.nodup_nil

theorem Aligns.fieldsIn_eq {aligned : Entries} (h : Aligns aligned given) (hs : s ∈ sections) :
    s.fieldsIn aligned = s.fieldsOf given :=
  congrArg dictionaryOf (h.get? s hs)

/-- Dictionaries of sections that have each name once are a layer under the names of the
sections. -/
theorem Aligns.layer {aligned : Entries} (h : Aligns aligned given) (hnested : Nested given)
    (hkeyed : Value.isKeyedEntries given = true) : Layer aligned := by
  refine ⟨fun s hs v hv => hnested s hs v ?_, h.nodup, fun s hs => ?_⟩
  · rw [← h.get? s hs, hv]
  · rw [h.fieldsIn_eq hs]
    exact nodup_names_fieldsOf hkeyed

/-- The sources of settings, the one that counts most first: given values, the tables of a file, and
the variables. -/
structure Layers where
  given : Entries
  tables : Entries
  assigned : List (String × String)

namespace Layers

/-- The value that counts for a field: the given one, or else that of the file, or else that of a
variable. -/
def chosen? (l : Layers) (s : Section) (field : Field) : Option Value :=
  (((s.fieldsOf l.given).get? field.name).or ((s.fieldsOf l.tables).get? field.name)).or
    (assignedTo? l.assigned s field)

/-- The settings that the sources give: each field has what is read from the value that counts for
it, or its default where there is none. -/
def Give (lib : Libraries) (l : Layers) (type : RecordType) (settings : Value) : Prop :=
  OnlyKnown l.given ∧ OnlyKnown l.tables ∧ ∃ value : Section → Field → Value,
    (∀ s ∈ sections, ∀ field ∈ s.fields, lib.Gets field (l.chosen? s field) (value s field)) ∧
      settings = settingsOf type value

end Layers

/-- No field of settings holds a dictionary. -/
theorem Libraries.Rules.not_reads_mapping (hlib : lib.Rules) :
    ∀ s ∈ sections, ∀ field ∈ s.fields, ∀ inner v, ¬ lib.Reads field (.mapping inner) v := by
  simp only [sections, tabsSection, loggingSection, List.forall_mem_cons]
  refine ⟨⟨?_, ?_, ?_, by simp⟩, ⟨?_, by simp⟩, by simp⟩ <;> rintro inner v ⟨w, hread, -⟩
  · obtain ⟨_, h, -⟩ := (hlib.text _ _).1 hread
    cases h
  · obtain ⟨_, -, h, -⟩ := (hlib.choice _ _ _).1 hread
    cases h
  · exact hlib.not_flag _ _ hread
  · obtain ⟨_, -, h, -⟩ := (hlib.choice _ _ _).1 hread
    cases h

section Merge
variable {aligned fromFile fromVariables : Entries} {assigned : List (String × String)}
variable (hlib : lib.Rules) (hof : OfSections fromVariables)
  (hgiven : Aligns aligned given) (hg : Layer aligned)
  (htables : Aligns fromFile tables) (ht : Layer fromFile)

include hlib hg ht

theorem layer_upper : Layer (lib.update fromFile (lib.update aligned [])) :=
  layer_update hlib (layer_update hlib layer_nil hg) ht

include hof

theorem sectioned_merge : Sectioned (lib.merge [aligned, fromFile, fromVariables]) :=
  sectioned_update hlib hof.sectioned (layer_upper hlib hg ht)

/-- The sources of a field lie on each other in their order. -/
theorem get?_fieldsIn_merge (hs : s ∈ sections) (name : String) :
    (s.fieldsIn (lib.merge [aligned, fromFile, fromVariables])).get? name =
      lib.overlaid ((s.fieldsIn fromVariables).get? name)
        (lib.overlaid ((s.fieldsIn fromFile).get? name) ((s.fieldsIn aligned).get? name)) := by
  have hnil : (s.fieldsIn []).get? name = none := rfl
  have hown := layer_update hlib layer_nil hg
  simp only [Libraries.merge, List.foldl_cons, List.foldl_nil]
  rw [get?_fieldsIn_update hlib hof.sectioned (layer_upper hlib hg ht) hs,
    get?_fieldsIn_update hlib ht.sectioned hown hs,
    get?_fieldsIn_update hlib hg.sectioned layer_nil hs, hnil, Libraries.overlaid_none_right]

include hgiven htables

/-- Variables bring in no names but those of fields. -/
theorem names_fieldsIn_merge (hs : s ∈ sections) :
    (∀ name ∈ (s.fieldsIn (lib.merge [aligned, fromFile, fromVariables])).names,
      name ∈ s.fields.map (·.name)) ↔
      (∀ name ∈ (s.fieldsOf given).names, name ∈ s.fields.map (·.name)) ∧
        ∀ name ∈ (s.fieldsOf tables).names, name ∈ s.fields.map (·.name) := by
  have hmem : ∀ name, name ∈ (s.fieldsIn (lib.merge [aligned, fromFile, fromVariables])).names ↔
      name ∈ (s.fieldsIn fromVariables).names ∨
        name ∈ (s.fieldsOf tables).names ∨ name ∈ (s.fieldsOf given).names := by
    intro name
    simp only [Entries.mem_names_iff, get?_fieldsIn_merge hlib hof hg ht hs,
      Libraries.isSome_overlaid, hgiven.fieldsIn_eq hs, htables.fieldsIn_eq hs]
  simp only [hmem, or_imp, forall_and]
  rw [and_comm (a := ∀ name ∈ (s.fieldsOf tables).names, name ∈ s.fields.map (·.name))]
  exact and_iff_right (hof.names_fieldsIn hs)

/-- A field gets the same from all sources together as from the first that has it. -/
theorem gets_merge_iff (hs : s ∈ sections) (hfield : field ∈ s.fields)
    (hassigned : (s.fieldsIn fromVariables).get? field.name = assignedTo? assigned s field) :
    lib.Gets field ((s.fieldsIn (lib.merge [aligned, fromFile, fromVariables])).get?
        field.name) v ↔
      lib.Gets field ((Layers.mk given tables assigned).chosen? s field) v := by
  have hread : ∀ inner, ¬ lib.Reads field (.mapping inner) v :=
    fun inner => hlib.not_reads_mapping s hs field hfield inner v
  -- Twice the same: the variables below the two others, with nothing after them, and then the file
  -- below what is given, with the variables after both.
  rw [get?_fieldsIn_merge hlib hof hg ht hs, ← Option.or_none (o := lib.overlaid _ _),
    Libraries.gets_overlaid hread, Option.or_none, Libraries.gets_overlaid hread, hassigned,
    hgiven.fieldsIn_eq hs, htables.fieldsIn_eq hs]
  rfl

theorem names_merge_iff :
    (∀ name ∈ (lib.merge [aligned, fromFile, fromVariables]).names,
      name ∈ sections.map (·.key)) ↔
      (∀ name ∈ given.names, (inAnyCase? (sections.map (·.key)) name).isSome) ∧
        ∀ name ∈ tables.names, (inAnyCase? (sections.map (·.key)) name).isSome := by
  have hupper := layer_upper hlib hg ht
  have hown := (layer_update hlib layer_nil hg).nodup
  have hnil : ∀ name, name ∉ Entries.names [] := fun _ => List.not_mem_nil
  rw [← hgiven.names_iff, ← htables.names_iff]
  simp only [Libraries.merge, List.foldl_cons, List.foldl_nil, mem_names_update hlib hupper.nodup,
    mem_names_update hlib hown, mem_names_update hlib layer_nil.nodup, or_imp, forall_and,
    hnil, false_imp_iff, and_true]
  rw [and_comm (a := ∀ name ∈ fromFile.names, name ∈ sections.map (·.key))]
  exact and_iff_right hof.names

/-- Sources laid over each other are read as the settings that they give. -/
theorem readSettings_merge_iff
    (hassigned : ∀ s ∈ sections, ∀ field ∈ s.fields,
      (s.fieldsIn fromVariables).get? field.name = assignedTo? assigned s field) :
    lib.readSettings type (lib.merge [aligned, fromFile, fromVariables]) = .ok settings ↔
      (Layers.mk given tables assigned).Give lib type settings := by
  have hsectioned := sectioned_merge hlib hof hg ht
  have hunread : Unread (lib.merge [aligned, fromFile, fromVariables]) := by
    intro s hs v hv
    obtain ⟨inner, rfl⟩ := hsectioned s hs v hv
    rfl
  have hnames := names_merge_iff hlib hof hgiven hg htables ht
  have hinner := (forall₂_congr fun s hs =>
    names_fieldsIn_merge hlib hof hgiven hg htables ht (s := s) hs).trans forall₂_and
  have hgets : ∀ value : Section → Field → Value, (∀ s ∈ sections, ∀ field ∈ s.fields,
      lib.Gets field ((s.fieldsIn (lib.merge [aligned, fromFile, fromVariables])).get?
        field.name) (value s field)) ↔
      ∀ s ∈ sections, ∀ field ∈ s.fields,
        lib.Gets field ((Layers.mk given tables assigned).chosen? s field) (value s field) := by
    refine fun value => forall₂_congr fun s hs => forall₂_congr fun field hfield => ?_
    exact gets_merge_iff hlib hof hgiven hg htables ht hs hfield (hassigned s hs field hfield)
  rw [hlib.readSettings _ _ _ hunread, hnames, hinner]
  simp only [hgets]
  constructor
  · rintro ⟨-, ⟨hg, ht⟩, ⟨hg', ht'⟩, hvalue⟩
    exact ⟨⟨hg, hg'⟩, ⟨ht, ht'⟩, hvalue⟩
  · rintro ⟨hg, ht, hvalue⟩
    exact ⟨hsectioned, ⟨hg.sections, ht.sections⟩, ⟨hg.fields, ht.fields⟩, hvalue⟩

end Merge

end Settings

end MarkdownTree
