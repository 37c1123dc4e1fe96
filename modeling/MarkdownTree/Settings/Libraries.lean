import MarkdownTree.Files.Store
import MarkdownTree.Settings.Variables
import MarkdownTree.Toml.Layout
import MarkdownTree.Toml.Reader

/-!
The libraries that settings rest on. They read values as what is declared, tell what each source
holds, lay sources over each other, and write tables. What settings do is stated for all libraries;
the standard ones are those that are run.
-/

namespace MarkdownTree.Settings

/-- What settings depend on beside given values. -/
structure Surroundings where
  files : Files.Store
  /-- The environment variables, in order. -/
  assigned : List (String × String)
  /-- The home folders of the users by their names; that of the empty name is the own one. -/
  homes : List (String × String)
  /-- How many settings files were loaded so far. -/
  loads : Nat

/-- Why settings cannot be made. -/
inductive MakeFault where
  /-- The path of the file begins with the home folder of nobody. -/
  | homeless
  | unreadableFile (source : List Char) (e : Toml.Fault)
  | unreadableVariable (e : UnreadableVariable)
  | invalid (e : Invalid)

def MakeFault.text : MakeFault → String
  | .homeless => "Could not determine home directory."
  | .unreadableFile source e => e.text source
  | .unreadableVariable e => e.message
  | .invalid e => e.report

/-- The value of a section under its name, or else under the first that equals it but for case. -/
def givenFor? (s : Section) (given : Entries) : Option Value :=
  (given.get? s.key).or ((given.find? fun entry => (inAnyCase? [s.key] entry.1).isSome).map (·.2))

/-- Values under the names of the sections where these are meant, then all others. -/
def alignNames (given : Entries) : Entries :=
  (sections.filterMap fun s => (givenFor? s given).map (s.key, ·)) ++
    given.filter fun entry => (inAnyCase? (sections.map (·.key)) entry.1).isNone

/-- The home folder of a user; a variable tells the own one, if it is assigned. -/
def Surroundings.home? (w : Surroundings) (user : String) : Option String :=
  if user = "" then (w.assigned.lookup "HOME").or (w.homes.lookup user) else w.homes.lookup user

/-- A path with the home folder of a user in the place of a tilde and the name of the user, where
it begins with these. -/
def expandHome (w : Surroundings) (path : Files.Path) : Except MakeFault Files.Path :=
  match path.namedUser? with
  | none => .ok path
  | some user =>
    match w.home? user with
    | none => .error .homeless
    | some home =>
      let folder := Files.Path.ofFolder home
      if folder.namedUser?.isSome then .error .homeless
      else .ok { folder with parts := folder.parts ++ path.parts.drop 1 }

/-- The settings that a file holds; without a file, or with a folder in its place, none. -/
def ofFile (w : Surroundings) (path : Files.Path) : Except MakeFault Entries := do
  match w.files.at? (← expandHome w path) with
  | some (.file text) => match Toml.read text with
    | .ok entries => .ok (alignNames entries)
    | .error e => .error (.unreadableFile (Toml.sourceOf text) e)
  | _ => .ok []

structure Libraries where
  /-- Reads a value of a type. -/
  readValue : FieldType → Value → Except (List Refusal) Value
  /-- Reads settings of a type from values for their sections. -/
  readSettings : RecordType → Entries → Except Invalid Value
  /-- Given values under the names of the sections that they are meant for. -/
  align : Entries → Entries
  /-- What the settings file of a path holds for the sections. -/
  ofFile : Surroundings → Files.Path → Except MakeFault Entries
  /-- What variables hold for the sections. -/
  ofVariables : List (String × String) → Except UnreadableVariable Entries
  /-- Entries with others laid over them. -/
  update : Entries → Entries → Entries
  /-- The text of a document of tables behind a comment. -/
  documentText : String → Entries → Except Toml.Unwritable String

namespace Libraries

def standard : Libraries where
  readValue := FieldType.read
  readSettings := readSections
  align := alignNames
  ofFile := Settings.ofFile
  ofVariables := Settings.ofVariables
  update := Value.overlay
  documentText comment entries :=
    (Toml.documentText entries).map (("# " ++ comment ++ "\n\n") ++ ·)

/-- The values of all sources together; the first of them counts most. -/
def merge (lib : Libraries) (sources : List Entries) : Entries :=
  sources.foldl (fun merged source => lib.update source merged) []

end Libraries

end MarkdownTree.Settings
