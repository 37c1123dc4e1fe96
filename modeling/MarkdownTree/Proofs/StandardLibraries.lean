import Mathlib.Data.List.Forall2
import MarkdownTree.Proofs.FieldVariables
import MarkdownTree.Proofs.UnreadSources

/-!
The standard libraries keep to the rules. Main statement: `rules_standard`.
-/

namespace MarkdownTree

namespace FieldType

theorem read_text_iff {u v : Value} :
    FieldType.text.read u = .ok v ↔ ∃ t, u = .str t ∧ v = .str t := by
  cases u <;> simp [read, here, eq_comm]

theorem read_choice_iff {options : List String} {u v : Value} :
    (FieldType.choice options).read u = .ok v ↔ ∃ o ∈ options, u = .str o ∧ v = .str o := by
  cases u with
  | str o => by_cases ho : o ∈ options <;> simp [read, here, ho, eq_comm]
  | _ => simp [read, here]

theorem of_read_flag {u v : Value} (h : FieldType.flag.read u = .ok v) : ∃ b, v = .bool b := by
  cases hflag : flagOf u <;> simp only [read, here, hflag, Except.map] at h <;> cases h
  exact ⟨_, rfl⟩

end FieldType

theorem collectFields_cons_eq_ok {name : String} {result : Except (List Refusal) Value}
    {results : List (String × Except (List Refusal) Value)} {values : Entries} :
    collectFields ((name, result) :: results) = .ok values ↔
      ∃ v vs, result = .ok v ∧ collectFields results = .ok vs ∧ values = (name, v) :: vs := by
  cases result <;> cases hrest : collectFields results <;> simp [collectFields, hrest, eq_comm]

theorem collectFields_eq_ok {results : List (String × Except (List Refusal) Value)}
    {values : Entries} :
    collectFields results = .ok values ↔
      List.Forall₂ (fun result entry => entry.1 = result.1 ∧ result.2 = .ok entry.2)
        results values := by
  induction results generalizing values with
  | nil => simp [collectFields, eq_comm]
  | cons result results ih =>
    rw [collectFields_cons_eq_ok, List.forall₂_cons_left_iff]
    constructor
    · rintro ⟨v, vs, hv, hvs, rfl⟩
      exact ⟨(result.1, v), vs, ⟨rfl, hv⟩, ih.mp hvs, rfl⟩
    · rintro ⟨⟨name, v⟩, vs, ⟨rfl, hv⟩, hvs, rfl⟩
      exact ⟨v, vs, hv, ih.mpr hvs, rfl⟩

/-- Of a family of results the values are collected, under the names that go with them. -/
theorem collectFields_map_eq_ok {α : Type} {items : List α} {name : α → String}
    {result : α → Except (List Refusal) Value} {values : Entries} :
    collectFields (items.map fun a => (name a, result a)) = .ok values ↔
      ∃ value : α → Value, (∀ a ∈ items, result a = .ok (value a)) ∧
        values = items.map fun a => (name a, value a) := by
  rw [collectFields_eq_ok, List.forall₂_map_left_iff]
  constructor
  · intro h
    refine ⟨fun a => (result a).toOption.getD .null, ?_⟩
    induction h with
    | nil => simp
    | @cons a entry items values hentry _ ih =>
      obtain ⟨key, v⟩ := entry
      obtain ⟨rfl, hresult : result a = .ok v⟩ := hentry
      have hvalue : (result a).toOption.getD .null = v := by
        rw [hresult]
        rfl
      refine ⟨List.forall_mem_cons.2 ⟨hresult.trans (congrArg Except.ok hvalue.symm), ih.1⟩, ?_⟩
      exact congrArg₂ List.cons (congrArg (Prod.mk (name a)) hvalue.symm) ih.2
  · rintro ⟨value, hvalue, rfl⟩
    rw [List.forall₂_map_right_iff]
    exact List.forall₂_same.mpr fun a ha => ⟨rfl, hvalue a ha⟩

theorem refuseUnknown_eq_nil {names : List String} {given : Entries} :
    refuseUnknown names given = [] ↔ ∀ name ∈ given.names, name ∈ names := by
  simp [refuseUnknown, Entries.names, List.filter_eq_nil_iff]

theorem closeRecord_eq_ok {collected : Except (List Refusal) Entries} {names : List String}
    {given values : Entries} :
    closeRecord collected names given = .ok values ↔
      collected = .ok values ∧ ∀ name ∈ given.names, name ∈ names := by
  rw [← refuseUnknown_eq_nil]
  unfold closeRecord
  split <;> simp_all

namespace Entries

variable {base entries : Entries}

/-- What lies on top counts; dictionaries are laid over dictionaries. -/
theorem get?_overlay {base entries : Entries} (h : entries.names.Nodup) (name : String) :
    get? (Value.overlay base entries) name =
      match entries.get? name with
      | some v => some (Value.overlayValue (base.get? name) v)
      | none => base.get? name := by
  induction entries generalizing base with
  | nil => rfl
  | cons entry entries ih =>
    obtain ⟨key, v⟩ := entry
    obtain ⟨hkey, hnodup⟩ := List.nodup_cons.mp h
    rw [Value.overlay, ih hnodup, get?_cons]
    by_cases heq : key = name
    · subst heq
      rw [if_pos rfl, get?_of_notMem hkey, get?_put_self]
    · rw [if_neg heq, get?_put_of_ne _ _ heq]

theorem nodup_names_overlay (h : base.names.Nodup) :
    (names (Value.overlay base entries)).Nodup := by
  induction entries generalizing base with
  | nil => exact h
  | cons entry rest ih =>
      obtain ⟨key, v⟩ := entry
      rw [Value.overlay]
      exact ih (nodup_names_put h)

theorem get?_append {name : String} :
    get? (base ++ entries) name = (base.get? name).or (entries.get? name) := by
  rw [get?, List.find?_append, Option.map_or]
  rfl

end Entries

namespace Settings

variable {s : Section} {field : Field} {given : Entries} {u v : Value} {type : RecordType}
  {settings : Value}

theorem reads_standard_iff : Libraries.standard.Reads field u v ↔ field.read u = .ok v := by
  change (∃ w, field.type.read (field.prepare u) = .ok w ∧ field.check w = .ok v) ↔ _
  unfold Field.read
  cases field.type.read (field.prepare u) with
  | error es => simp
  | ok w => cases hcheck : field.check w <;> simp [hcheck]

theorem gets_standard_iff :
    Libraries.standard.Gets field (given.get? field.name) v ↔ field.readFrom given = .ok v := by
  unfold Field.readFrom Libraries.Gets
  cases given.get? field.name with
  | some u => cases hread : field.read u <;> simp [reads_standard_iff, hread]
  | none => cases field.default <;> simp

/-- A record is read where all names are known and every field gets a value. -/
theorem readFields_eq_ok_iff :
    s.readFields given = .ok v ↔
      (∀ name ∈ given.names, name ∈ s.fields.map (·.name)) ∧
        ∃ value : Field → Value,
          (∀ field ∈ s.fields,
            Libraries.standard.Gets field (given.get? field.name) (value field)) ∧
            v = .record s.type (s.filled value) := by
  have hmap : s.readFields given = .ok v ↔
      ∃ values, readRecord s.fields given = .ok values ∧ v = .record s.type values := by
    unfold Section.readFields
    cases readRecord s.fields given <;> simp [Except.map, eq_comm]
  simp only [hmap, readRecord, closeRecord_eq_ok, collectFields_map_eq_ok, gets_standard_iff]
  constructor
  · rintro ⟨_, ⟨⟨value, hvalue, rfl⟩, hknown⟩, rfl⟩
    exact ⟨hknown, value, hvalue, rfl⟩
  · rintro ⟨hknown, value, hvalue, rfl⟩
    exact ⟨_, ⟨⟨value, hvalue, rfl⟩, hknown⟩, rfl⟩

/-- The defaults of a section are what is read for it where nothing is given. -/
theorem readFields_nil : ∀ s ∈ sections, s.readFields [] = .ok s.default := by
  simp only [sections, List.forall_mem_cons]
  exact ⟨rfl, rfl, by simp⟩

/-- A section that was not read before is read from a dictionary. -/
theorem readFrom_eq_ok_iff (hs : s ∈ sections) (hgiven : Unread given) :
    s.readFrom given = .ok v ↔
      (∀ u, given.get? s.key = some u → ∃ inner, u = .mapping inner) ∧
        s.readFields (s.fieldsIn given) = .ok v := by
  unfold Section.readFrom Section.fieldsIn
  cases hget : given.get? s.key with
  | none => simp [dictionaryOf, readFields_nil s hs]
  | some u =>
    have hrecord := hgiven s hs u hget
    cases u with
    | mapping inner => cases hread : s.readFields inner <;>
        simp [Section.read, dictionaryOf, hread, Except.mapError]
    | record type fields => cases hrecord
    | _ => simp [Section.read, Except.mapError]

/-- Settings are read where all sections are known and can be read, and hold what was read for
them. -/
theorem readSections_eq_ok {type : RecordType} {given : Entries} {settings : Value} :
    readSections type given = .ok settings ↔
      (∀ name ∈ given.names, name ∈ sections.map (·.key)) ∧
      ∃ value : Section → Value, (∀ s ∈ sections, s.readFrom given = .ok (value s)) ∧
        settings = .record type (sections.map fun s => (s.key, value s)) := by
  have hclose : readSections type given = .ok settings ↔
      ∃ fields, closeRecord (collectFields (sections.map fun s => (s.key, s.readFrom given)))
        (sections.map (·.key)) given = .ok fields ∧ settings = .record type fields := by
    unfold readSections
    simp only
    cases closeRecord (collectFields (sections.map fun s => (s.key, s.readFrom given)))
      (sections.map (·.key)) given <;> simp [eq_comm]
  simp only [hclose, closeRecord_eq_ok, collectFields_map_eq_ok]
  constructor
  · rintro ⟨_, ⟨⟨value, hvalue, rfl⟩, hknown⟩, rfl⟩
    exact ⟨hknown, value, hvalue, rfl⟩
  · rintro ⟨hknown, value, hvalue, rfl⟩
    exact ⟨_, ⟨⟨value, hvalue, rfl⟩, hknown⟩, rfl⟩

/-- Settings are read where all names are known, of sections and of their fields, and every field
gets a value. -/
theorem readSections_eq_ok_iff (hgiven : Unread given) :
    readSections type given = .ok settings ↔
      Sectioned given ∧ (∀ name ∈ given.names, name ∈ sections.map (·.key)) ∧
      (∀ s ∈ sections, ∀ name ∈ (s.fieldsIn given).names, name ∈ s.fields.map (·.name)) ∧
      ∃ value : Section → Field → Value,
        (∀ s ∈ sections, ∀ field ∈ s.fields,
          Libraries.standard.Gets field ((s.fieldsIn given).get? field.name) (value s field)) ∧
        settings = settingsOf type value := by
  have hread : ∀ value : Section → Value, (∀ s ∈ sections, s.readFrom given = .ok (value s)) ↔
      Sectioned given ∧ ∀ s ∈ sections, s.readFields (s.fieldsIn given) = .ok (value s) := by
    intro value
    rw [Sectioned, ← forall₂_and]
    exact forall₂_congr fun s hs => readFrom_eq_ok_iff hs hgiven
  simp only [readSections_eq_ok, hread, readFields_eq_ok_iff]
  constructor
  · rintro ⟨hknown, value, ⟨hsectioned, hvalue⟩, rfl⟩
    choose! hnames found hfound hfields using hvalue
    refine ⟨hsectioned, hknown, hnames, found, hfound, ?_⟩
    rw [settingsOf, Value.record.injEq]
    exact ⟨rfl, List.map_congr_left fun s hs => congrArg (Prod.mk s.key) (hfields s hs)⟩
  · rintro ⟨hsectioned, hknown, hnames, value, hvalue, rfl⟩
    exact ⟨hknown, _, ⟨hsectioned, fun s hs => ⟨hnames s hs, value s, hvalue s hs, rfl⟩⟩, rfl⟩

theorem isSome_inAnyCase? :
    ∀ s ∈ sections, (inAnyCase? (sections.map (·.key)) s.key).isNone = false := by
  decide

theorem get?_alignNames (hs : s ∈ sections) :
    (alignNames given).get? s.key = givenFor? s given := by
  have hothers : Entries.get? (given.filter fun entry =>
      (inAnyCase? (sections.map (·.key)) entry.1).isNone) s.key = none := by
    refine Entries.get?_of_notMem fun hmem => ?_
    obtain ⟨entry, hentry, hkey⟩ := List.mem_map.1 hmem
    have hnone := (List.mem_filter.1 hentry).2
    rw [hkey, isSome_inAnyCase? s hs] at hnone
    exact absurd hnone Bool.false_ne_true
  rw [alignNames, Entries.get?_append, get?_filterMap_key nodup_keys hs, hothers, Option.or_none]

theorem names_filterMap_sublist (value : Section → Option Value) (wanted : List Section) :
    (Entries.names (wanted.filterMap fun s => (value s).map (s.key, ·))).Sublist
      (wanted.map (·.key)) := by
  induction wanted with
  | nil => exact .slnil
  | cons s wanted ih =>
      rw [List.filterMap_cons]
      cases value s with
      | none => exact ih.cons s.key
      | some v => exact ih.cons_cons s.key

theorem mem_names_alignNames {name : String} (h : name ∈ (alignNames given).names) :
    name ∈ sections.map (·.key) ∨
      name ∈ given.names ∧ (inAnyCase? (sections.map (·.key)) name).isNone := by
  rw [alignNames, Entries.names, List.map_append, List.mem_append] at h
  rcases h with hsection | hother
  · exact .inl ((names_filterMap_sublist _ _).subset hsection)
  · obtain ⟨entry, hentry, rfl⟩ := List.mem_map.1 hother
    obtain ⟨hmem, hnone⟩ := List.mem_filter.1 hentry
    exact .inr ⟨List.mem_map_of_mem hmem, hnone⟩

/-- Names are those of sections where they are so in any case. -/
theorem names_alignNames_iff :
    (∀ name ∈ (alignNames given).names, name ∈ sections.map (·.key)) ↔
      ∀ name ∈ given.names, (inAnyCase? (sections.map (·.key)) name).isSome := by
  constructor
  · intro h name hname
    cases hcase : inAnyCase? (sections.map (·.key)) name with
    | some key => rfl
    | none =>
        obtain ⟨entry, hentry, rfl⟩ := List.mem_map.1 hname
        have hmem : entry.1 ∈ (alignNames given).names := by
          refine List.mem_map_of_mem (List.mem_append_right _ (List.mem_filter.2 ⟨hentry, ?_⟩))
          rw [hcase]
          rfl
        obtain ⟨s, hs, hkey⟩ := List.mem_map.1 (h _ hmem)
        have hsome := isSome_inAnyCase? s hs
        rw [hkey, hcase] at hsome
        exact absurd hsome.symm Bool.false_ne_true
  · intro h name hname
    rcases mem_names_alignNames hname with hkey | ⟨hmem, hnone⟩
    · exact hkey
    · have hsome := h name hmem
      rw [Option.isNone_iff_eq_none.1 hnone] at hsome
      exact absurd hsome Bool.false_ne_true

theorem nodup_names_alignNames (hnames : given.names.Nodup) :
    (alignNames given).names.Nodup := by
  rw [alignNames, Entries.names, List.map_append, List.nodup_append']
  -- What is left beside the sections has none of their names, in any case.
  refine ⟨nodup_keys.sublist (names_filterMap_sublist _ _),
    hnames.sublist (List.filter_sublist.map _), fun name hsection hother => ?_⟩
  obtain ⟨s, hs, rfl⟩ := List.mem_map.1 ((names_filterMap_sublist _ _).subset hsection)
  obtain ⟨entry, hentry, hkey⟩ := List.mem_map.1 hother
  have hnone := (List.mem_filter.1 hentry).2
  rw [hkey, isSome_inAnyCase? s hs] at hnone
  exact absurd hnone Bool.false_ne_true

theorem aligns_alignNames (h : given.names.Nodup) : Aligns (alignNames given) given :=
  ⟨fun _ hs => get?_alignNames hs, names_alignNames_iff, nodup_names_alignNames h⟩

theorem expandHome_eq {w : Surroundings} {path : Files.Path} (h : path.namedUser? = none) :
    expandHome w path = .ok path := by
  simp only [expandHome, h]

variable {w : Surroundings} {path : Files.Path} {tables : Entries}

/-- A file whose path begins with no home folder is read where it is. -/
theorem ofFile_eq {text : String} (hpath : path.namedUser? = none)
    (hat : w.files.at? path = some (.file text)) (hread : Toml.read text = .ok tables) :
    ofFile w path = .ok (alignNames tables) := by
  simp only [ofFile, expandHome_eq hpath, bind, Except.bind, hat, hread]

theorem ofFile_eq_nil (hpath : path.namedUser? = none)
    (hat : ∀ text, w.files.at? path ≠ some (.file text)) : ofFile w path = .ok [] := by
  simp only [ofFile, expandHome_eq hpath, bind, Except.bind]

theorem ofFile_of_tablesAt (hpath : path.namedUser? = none) (h : TablesAt w.files path tables) :
    ∃ fromFile, ofFile w path = .ok fromFile ∧ Aligns fromFile tables := by
  unfold TablesAt at h
  split at h
  · next text hat =>
    have hnodup := Entries.nodup_names_of_isKeyed (Toml.isKeyed_read h)
    exact ⟨_, ofFile_eq hpath hat h, aligns_alignNames hnodup⟩
  · next hat =>
    subst h
    have hnil : (Entries.names []).Nodup := List.nodup_nil
    exact ⟨[], ofFile_eq_nil hpath hat, aligns_alignNames hnil⟩

theorem nodup_names_ofFile (h : ofFile w path = .ok given) : given.names.Nodup := by
  unfold ofFile at h
  cases hhome : expandHome w path with
  | error e => rw [hhome] at h; cases h
  | ok place =>
    simp only [hhome, bind, Except.bind] at h
    split at h
    · split at h
      · next hread =>
        cases h
        exact nodup_names_alignNames (Entries.nodup_names_of_isKeyed (Toml.isKeyed_read hread))
      · cases h
    · cases h
      exact List.nodup_nil

theorem overlaid_standard (base? upper? : Option Value) :
    (match upper? with
      | some v => some (Value.overlayValue base? v)
      | none => base?) = Libraries.standard.overlaid base? upper? := by
  rcases upper? with _ | v
  · rcases base? with _ | old
    · rfl
    · cases old <;> rfl
  · rcases base? with _ | old
    · cases v <;> rfl
    · cases v <;> cases old <;> rfl

theorem unread_of_recordless (h : given.Recordless) : Unread given :=
  fun _ _ _ hv => h.get? hv

/-- The standard libraries keep to the rules. -/
theorem rules_standard : Libraries.standard.Rules where
  text _ _ := FieldType.read_text_iff
  choice _ _ _ := FieldType.read_choice_iff
  flag b := by cases b <;> rfl
  of_flag _ _ := FieldType.of_read_flag
  not_flag _ _ h := by cases h
  readSettings _ _ _ := readSections_eq_ok_iff
  align _ := aligns_alignNames
  ofFile _ _ _ := ofFile_of_tablesAt
  unread_ofFile _ _ _ h := ⟨nodup_names_ofFile h, unread_of_recordless (recordless_ofFile h)⟩
  ofVariables _ := ofVariables_eq_assignedTo
  unread_ofVariables _ _ h := unread_of_recordless (recordless_sectionsOfVariables h)
  get?_update _ _ h name := by
    rw [Libraries.standard, Entries.get?_overlay h]
    exact overlaid_standard _ _
  nodup_update _ _ := Entries.nodup_names_overlay
  documentText comment tables h := by
    change (Toml.documentText (Toml.entriesOf tables)).map _ = _
    rw [Toml.documentText_flat h]
    rfl

end Settings

end MarkdownTree
