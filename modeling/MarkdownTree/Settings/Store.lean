import MarkdownTree.Forest.Fault
import MarkdownTree.Settings.Sources
import MarkdownTree.Text.Lines

/-!
Settings files: writing settings to them, loading settings from them, and making them anew with
default values.
-/

namespace MarkdownTree.Settings

/-- Why an operation on settings files fails. -/
inductive StoreFault where
  | file (e : Files.Fault)
  | make (e : MakeFault)
  | unwritable (e : Toml.Unwritable)
  /-- There is no settings file of this path. -/
  | missing (path : Files.Path)
  /-- The settings file of this path cannot be loaded. -/
  | unloadable (path : Files.Path) (e : MakeFault)

/-- The start of the lines that point to further information. -/
def hintMark : String := "For further information visit"

/-- The lines of a report without those that point to further information. -/
def withoutHints (report : String) : String :=
  String.intercalate "\n"
    ((Text.splitAtLineFeeds report).filter fun line => !Text.contains hintMark line)

def StoreFault.text : StoreFault → String
  | .file e => e.message
  | .make e => e.text
  | .unwritable e => e.message
  | .missing path => "Settings file not found: " ++ path.text
  | .unloadable path e =>
    "Failed to load settings from " ++ path.text ++ ": " ++ withoutHints e.text

/-- An operation on settings files. Changes stay even if it fails. -/
abbrev FileEdit (α : Type) := ExceptT StoreFault (StateM Surroundings) α

def setFiles : Except Files.Fault Files.Store → FileEdit Unit
  | .ok files => modify fun w => { w with files := files }
  | .error e => throw (.file e)

variable (lib : Libraries)

/-- Writes settings to a file; the folders that it lies in are made. -/
def exportTo (settings : Value) (path : Files.Path) : FileEdit Unit := do
  setFiles ((← get).files.ensureFolders path.parent)
  setFiles ((← get).files.write path "")
  match serialize lib settings with
  | .error e => throw (.unwritable e)
  | .ok text => setFiles ((← get).files.write path text)

/-- Makes a settings file with default values, in the place of one that is there. -/
def createDefault (path : Files.Path) : FileEdit Unit := do
  if ((← get).files.at? path).isSome then
    setFiles ((← get).files.remove path)
  match ofSources lib (← get) [] with
  | .ok settings => exportTo lib settings path
  | .error e => throw (.make e)

/-- Loads the settings of a file. Each loading makes a type of settings of its own. -/
def load (path : Files.Path) : FileEdit Value := do
  if ((← get).files.at? path).isNone then
    throw (.missing path)
  modify fun w => { w with loads := w.loads + 1 }
  let w ← get
  match make lib w ⟨fileRecordName, w.loads⟩ path [] with
  | .ok settings => pure settings
  | .error e => throw (.unloadable path e)

/-- The level that settings name for the library's own logger. -/
def logLevel (settings : Value) : Except TreeFault Value := do
  needMember (← needMember settings loggingSection.key) "level"

end MarkdownTree.Settings
