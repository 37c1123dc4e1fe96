import MarkdownTree.Settings.Libraries

/-!
Settings from their sources: given values count most, then those of a file, then those of
environment variables, and last the defaults, for each field on its own. Settings are written to
files as TOML documents.
-/

namespace MarkdownTree.Settings

variable (lib : Libraries)

/-- Makes settings of a type from given values, the file of a path and the variables. -/
def make (w : Surroundings) (type : RecordType) (path : Files.Path) (given : Entries) :
    Except MakeFault Value := do
  let fromFile ← lib.ofFile w path
  let fromVariables ← (lib.ofVariables w.assigned).mapError .unreadableVariable
  (lib.readSettings type (lib.merge [lib.align given, fromFile, fromVariables])).mapError .invalid

/-- The path of the settings file that is used unless another one is given. -/
def defaultPath : Files.Path := .ofString "doctree.toml"

/-- Makes settings from given values and the usual sources. -/
def ofSources (w : Surroundings) (given : Entries) : Except MakeFault Value :=
  make lib w ⟨recordName, 0⟩ defaultPath given

def fileComment : String := "Configuration file"

/-- An entry without the fields that hold nothing; nothing itself is left out. -/
def writtenEntry? (entry : String × Value) : Option (String × Value) :=
  match entry with
  | (_, .null) => none
  | (name, .mapping fields) =>
    some (name, .mapping (fields.filter fun field => match field.2 with
      | .null => false
      | _ => true))
  | entry => some entry

def writtenEntries (settings : Value) : Entries :=
  match settings.plain with
  | .mapping entries => entries.filterMap writtenEntry?
  | _ => []

def serialize (settings : Value) : Except Toml.Unwritable String :=
  lib.documentText fileComment (writtenEntries settings)

/-- Settings as a text: as they are written to a file; a section by its fields. -/
def display (nodeText : NodeId → String) (settings : Value) : Except Toml.Unwritable String :=
  match settings with
  | .record type fields =>
    if isSettings type then serialize lib settings
    else .ok (String.intercalate " " (Value.textEntries nodeText "=" false fields))
  | v => .ok (v.display nodeText)

/-- Why a member cannot be assigned to. -/
inductive AssignFault where
  | frozen (e : Invalid)
  | noMember (type member : String)

/-- Assigns to the member at the end of a series of names. No field of settings can be assigned to;
a name that begins with a low line is none of a field, and is passed over. -/
def assign (settings : Value) : List String → Value → Except AssignFault Unit
  | [], _ => .ok ()
  | [name], v =>
    match settings with
    | .record type _ =>
      if name.toList.head? = some '_' then .ok ()
      else .error (.frozen ⟨type.name, [⟨[name], .frozen, v⟩]⟩)
    | other => .error (.noMember other.typeName name)
  | name :: rest, v =>
    match settings.member? name with
    | some inner => assign inner rest v
    | none => .error (.noMember settings.typeName name)

end MarkdownTree.Settings
