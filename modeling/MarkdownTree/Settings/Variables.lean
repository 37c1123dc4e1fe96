import MarkdownTree.Json.Reader
import MarkdownTree.Settings.Section

/-!
Settings from environment variables. The name of a variable is taken in any case. A variable named
after a section holds it as a JSON object; one that goes on with two low lines holds one field of
it, and two more low lines lead further inwards. Such fields count more than the object.
-/

namespace MarkdownTree.Settings

def variablesStart : List Char := "doctree_".toList

/-- Variables by their names in lower case; the later of two equal ones counts. -/
def lowerNames (assigned : List (String × String)) : Entries :=
  assigned.foldl
    (fun acc (name, text) => acc.put (String.ofList (Text.lower name.toList)) (.str text)) []

def splitAtDoubleLines : List Char → List (List Char)
  | '_' :: '_' :: rest => [] :: splitAtDoubleLines rest
  | c :: rest =>
    match splitAtDoubleLines rest with
    | [] => [[c]]
    | piece :: pieces => (c :: piece) :: pieces
  | [] => [[]]

/-- Puts a value under a series of names, each of a dictionary in the one before. A value that is no
dictionary bars the way. -/
def putInside (v : Value) : List String → Entries → Entries
  | [], entries => entries
  | [name], entries => entries.put name v
  | name :: rest, entries =>
    match entries.get? name with
    | none => entries.put name (.mapping (putInside v rest []))
    | some (.mapping inner) => entries.put name (.mapping (putInside v rest inner))
    | some _ => entries

def restAfter? (start name : List Char) : Option (List Char) :=
  if start.isPrefixOf name then some (name.drop start.length) else none

def separateFields (s : Section) (assigned : Entries) : Entries :=
  assigned.foldl (fun acc (name, v) =>
    match restAfter? (variablesStart ++ s.key.toList ++ ['_', '_']) name.toList with
    | some rest => putInside v ((splitAtDoubleLines rest).map String.ofList) acc
    | none => acc) []

/-- The first of some names that equals a name but for case. -/
def inAnyCase? (names : List String) (name : String) : Option String :=
  names.find? fun n => Text.lower n.toList == Text.lower name.toList

def fieldName (s : Section) (name : String) : String :=
  (inAnyCase? (s.fields.map (·.name)) name).getD name

/-- Entries under the names of the fields of a section where these are meant. -/
def renameFields (s : Section) (given : Entries) : Entries :=
  given.foldl (fun acc (name, v) => acc.put (fieldName s name) v) []

/-- A variable of this section does not hold JSON. -/
structure UnreadableVariable where
  key : String

def UnreadableVariable.message (e : UnreadableVariable) : String :=
  "error parsing value for field \"" ++ e.key ++ "\" from source \"EnvSettingsSource\""

/-- The value of a section that the variable named after it holds, with the fields that variables of
their own hold. -/
def sectionOfVariables (s : Section) (assigned : Entries) :
    Except UnreadableVariable (Option Value) :=
  let separate := separateFields s assigned
  match assigned.get? (String.ofList (variablesStart ++ s.key.toList)) with
  | some (.str text) =>
    match Json.read? text with
    | none => .error ⟨s.key⟩
    | some .null => .ok none
    | some (.mapping given) => .ok (some (.mapping (renameFields s (Value.overlay given separate))))
    | some v => .ok (some v)
  | _ => .ok (if separate.isEmpty then none else some (.mapping (renameFields s separate)))

def sectionsOfVariables (assigned : Entries) : List Section → Except UnreadableVariable Entries
  | [] => .ok []
  | s :: rest => do
    let v ← sectionOfVariables s assigned
    let values ← sectionsOfVariables assigned rest
    .ok (v.toList.map (fun v => (s.key, v)) ++ values)

def ofVariables (assigned : List (String × String)) : Except UnreadableVariable Entries :=
  sectionsOfVariables (lowerNames assigned) sections

end MarkdownTree.Settings
