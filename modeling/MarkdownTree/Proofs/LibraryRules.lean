import MarkdownTree.Proofs.FlatDocuments
import MarkdownTree.Settings.Store

/-!
What is known of the libraries that settings rest on. Values are read as the types of fields say,
sections as their fields, with nothing else among them; each source gives what it holds under the
names of sections; sources are laid over each other name by name; and flat tables are written as
lines under their names. All that is proved of settings is proved from these rules.
-/

namespace MarkdownTree

def Value.isRecord : Value → Bool
  | .record _ _ => true
  | _ => false

namespace Settings

def dictionaryOf : Option Value → Entries
  | some (.mapping entries) => entries
  | _ => []

def Section.fieldsIn (s : Section) (given : Entries) : Entries :=
  dictionaryOf (given.get? s.key)

/-- Nothing but dictionaries stands under the names of sections. -/
def Sectioned (given : Entries) : Prop :=
  ∀ s ∈ sections, ∀ v, given.get? s.key = some v → ∃ inner, v = .mapping inner

/-- No record of a section stands under its name. -/
def Unread (given : Entries) : Prop :=
  ∀ s ∈ sections, ∀ v, given.get? s.key = some v → v.isRecord = false

/-- Entries that hold, under the names of sections, dictionaries of fields of these. -/
def OfSections (given : Entries) : Prop :=
  ∀ entry ∈ given, ∃ s ∈ sections, entry.1 = s.key ∧
    ∃ inner : Entries, entry.2 = .mapping inner ∧
      ∀ name ∈ inner.names, name ∈ s.fields.map (·.name)

def Section.filled (s : Section) (value : Field → Value) : Entries :=
  s.fields.map fun field => (field.name, value field)

def settingsOf (type : RecordType) (value : Section → Field → Value) : Value :=
  .record type (sections.map fun s => (s.key, .record s.type (s.filled (value s))))

/-- Entries under the names of sections instead of names that equal these but for case. -/
structure Aligns (aligned given : Entries) : Prop where
  get? (s : Section) (hs : s ∈ sections) : aligned.get? s.key = givenFor? s given
  names_iff : (∀ name ∈ aligned.names, name ∈ sections.map (·.key)) ↔
    ∀ name ∈ given.names, (inAnyCase? (sections.map (·.key)) name).isSome
  nodup : aligned.names.Nodup

/-- The tables of the settings file of a path; where there is no file, there are none. -/
def TablesAt (files : Files.Store) (path : Files.Path) (tables : Entries) : Prop :=
  match files.at? path with
  | some (.file text) => Toml.read text = .ok tables
  | _ => tables = []

/-- The name of the variable that holds a field, in lower case. -/
def leafName (s : Section) (field : Field) : List Char :=
  variablesStart ++ s.key.toList ++ ['_', '_'] ++ field.name.toList

/-- Variables that are none of the settings, or hold single fields of them. -/
def OnlyFields (assigned : List (String × String)) : Prop :=
  ∀ entry ∈ assigned, variablesStart <+: Text.lower entry.1.toList →
    ∃ s ∈ sections, ∃ field ∈ s.fields, Text.lower entry.1.toList = leafName s field

/-- The text of the last variable that has the name of a field. -/
def assignedTo? (assigned : List (String × String)) (s : Section) (field : Field) : Option Value :=
  (assigned.reverse.find? fun entry => Text.lower entry.1.toList == leafName s field).map
    fun entry => .str entry.2

namespace Libraries

variable (lib : Libraries)

/-- A field is read from a value: that is prepared, read as of the field's type, and checked. -/
def Reads (field : Field) (u v : Value) : Prop :=
  ∃ w, lib.readValue field.type (field.prepare u) = .ok w ∧ field.check w = .ok v

/-- A field gets a value: it reads it from the one that was chosen, or takes its default. -/
def Gets (field : Field) (chosen? : Option Value) (v : Value) : Prop :=
  match chosen? with
  | some u => lib.Reads field u v
  | none => field.default = some v

/-- A value over another one: dictionaries are laid over dictionaries. -/
def overlaid (base? upper? : Option Value) : Option Value :=
  match base?, upper? with
  | some (.mapping base), some (.mapping upper) => some (.mapping (lib.update base upper))
  | base?, upper? => upper?.or base?

/-- What is known of the libraries. -/
structure Rules : Prop where
  text (u v : Value) : lib.readValue .text u = .ok v ↔ ∃ t, u = .str t ∧ v = .str t
  choice (options : List String) (u v : Value) :
    lib.readValue (.choice options) u = .ok v ↔ ∃ o ∈ options, u = .str o ∧ v = .str o
  flag (b : Bool) : lib.readValue .flag (.bool b) = .ok (.bool b)
  of_flag (u v : Value) (h : lib.readValue .flag u = .ok v) : ∃ b, v = .bool b
  not_flag (inner : Entries) (v : Value) : lib.readValue .flag (.mapping inner) ≠ .ok v
  /-- Settings are read where all names are known, of sections and of their fields, and every field
  gets a value. -/
  readSettings (type : RecordType) (given : Entries) (settings : Value) (h : Unread given) :
    lib.readSettings type given = .ok settings ↔
      Sectioned given ∧ (∀ name ∈ given.names, name ∈ sections.map (·.key)) ∧
      (∀ s ∈ sections, ∀ name ∈ (s.fieldsIn given).names, name ∈ s.fields.map (·.name)) ∧
      ∃ value : Section → Field → Value,
        (∀ s ∈ sections, ∀ field ∈ s.fields,
          lib.Gets field ((s.fieldsIn given).get? field.name) (value s field)) ∧
        settings = settingsOf type value
  align (given : Entries) (h : given.names.Nodup) : Aligns (lib.align given) given
  /-- The file of a path is a TOML document. If the path begins with a home folder, it is another
  one. -/
  ofFile (w : Surroundings) (path : Files.Path) (tables : Entries) (hpath : path.namedUser? = none)
    (h : TablesAt w.files path tables) :
    ∃ fromFile, lib.ofFile w path = .ok fromFile ∧ Aligns fromFile tables
  unread_ofFile (w : Surroundings) (path : Files.Path) (fromFile : Entries)
    (h : lib.ofFile w path = .ok fromFile) : fromFile.names.Nodup ∧ Unread fromFile
  /-- A variable of a field holds its value as a text. -/
  ofVariables (assigned : List (String × String)) (h : OnlyFields assigned) :
    ∃ given, lib.ofVariables assigned = .ok given ∧ OfSections given ∧
      ∀ s ∈ sections, ∀ field ∈ s.fields,
        (s.fieldsIn given).get? field.name = assignedTo? assigned s field
  unread_ofVariables (assigned : List (String × String)) (given : Entries)
    (h : lib.ofVariables assigned = .ok given) : Unread given
  get?_update (base upper : Entries) (h : upper.names.Nodup) (name : String) :
    (lib.update base upper).get? name = lib.overlaid (base.get? name) (upper.get? name)
  nodup_update (base upper : Entries) (h : base.names.Nodup) :
    (lib.update base upper).names.Nodup
  /-- Flat tables are written line by line, texts as basic strings with the usual escapes. -/
  documentText (comment : String) (tables : List (String × Entries))
    (h : Toml.FlatDocument tables) :
    lib.documentText comment (Toml.entriesOf tables) =
      .ok ("# " ++ comment ++ "\n\n" ++ Toml.tableTexts false tables)

end Libraries

end Settings

end MarkdownTree
