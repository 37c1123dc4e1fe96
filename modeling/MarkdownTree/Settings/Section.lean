import MarkdownTree.Schema.Validation
import MarkdownTree.Text.Blank
import MarkdownTree.Text.Case

/-!
The sections of the settings: those of the tabs, and those of the loggers. A section is a record; it
is read from a dictionary, and its fields cannot be changed afterwards.
-/

namespace MarkdownTree.Settings

/-- A section: the name it has among the settings, the name of its records, and their fields. -/
structure Section where
  key : String
  record : String
  fields : List Field

/-- Holds the category of tabs to a word without blanks, after those around it are taken away. -/
def checkCategory : Value → Except String Value
  | .str s =>
    let trimmed := Text.trim s.toList
    if trimmed.isEmpty then .error "The tabs category is empty"
    else if trimmed.any Text.isBlank then .error "The tabs category cannot contain whitespace"
    else .ok (.str (String.ofList trimmed))
  | v => .ok v

/-- Takes away the blanks around a text and turns it to upper case. -/
def normalizeLevel : Value → Value
  | .str s => .str (String.ofList (Text.upper (Text.trim s.toList)))
  | v => v

/-- The section of the tabs: the category that marks them, the way they are written, and whether
adjacent ones are put together. -/
def tabsSection : Section where
  key := "tabs"
  record := "TabsSettings"
  fields := [
    { name := "category", type := .text, default := some (.str "tabs"), check := checkCategory },
    { name := "strategy", type := .choice ["interleaved", "stash"]
      default := some (.str "interleaved") },
    { name := "group_consecutive", type := .flag, default := some (.bool false) }]

/-- The section of the loggers: the level of the library's own one. -/
def loggingSection : Section where
  key := "logging"
  record := "LoggingSettings"
  fields := [
    { name := "level", type := .choice ["DEBUG", "INFO", "WARNING", "ERROR", "CRITICAL"]
      default := some (.str "INFO"), prepare := normalizeLevel }]

def sections : List Section := [tabsSection, loggingSection]

namespace Section

def type (s : Section) : RecordType := ⟨s.record, 0⟩

/-- The record of a section with the given values as they are, and defaults for the others. -/
def construct (s : Section) (given : Entries) : Value :=
  .record s.type (s.fields.map fun field =>
    (field.name, ((given.get? field.name).or field.default).getD .null))

def default (s : Section) : Value :=
  s.construct []

def readFields (s : Section) (given : Entries) : Except (List Refusal) Value :=
  (readRecord s.fields given).map (.record s.type)

/-- Makes the record of a section from given values. -/
def build (s : Section) (given : Entries) : Except Invalid Value :=
  (s.readFields given).mapError (⟨s.record, ·⟩)

/-- Reads a section from a dictionary; a record of it stays as it is. -/
def read (s : Section) (v : Value) : Except (List Refusal) Value :=
  match v with
  | .mapping given => s.readFields given
  | .record type fields =>
    if type.name = s.record then .ok (.record type fields)
    else .error [⟨[], .notRecord s.record, v⟩]
  | v => .error [⟨[], .notRecord s.record, v⟩]

/-- The value of a section among given values. -/
def readFrom (s : Section) (given : Entries) : Except (List Refusal) Value :=
  match given.get? s.key with
  | some v => (s.read v).mapError fun es => es.map (·.within s.key)
  | none => .ok s.default

end Section

def readSections (type : RecordType) (given : Entries) : Except Invalid Value :=
  let collected := collectFields (sections.map fun s => (s.key, s.readFrom given))
  match closeRecord collected (sections.map (·.key)) given with
  | .ok fields => .ok (.record type fields)
  | .error refusals => .error ⟨type.name, refusals⟩

def recordName : String := "Settings"

def fileRecordName : String := "FileSettings"

def isSettings (type : RecordType) : Bool :=
  type.name = recordName || type.name = fileRecordName

/-- Settings with the given values as they are, and defaults for the others. -/
def construct (given : Entries) : Value :=
  .record ⟨recordName, 0⟩ (sections.map fun s => (s.key, (given.get? s.key).getD s.default))

end MarkdownTree.Settings
