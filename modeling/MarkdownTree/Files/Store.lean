import MarkdownTree.Files.Path
import MarkdownTree.Text.Quoted

/-!
Files and folders, and the working folder that paths without a root start from. Operations fail as
those of an operating system do: for names that are not there, for folders in the place of files,
for files in the place of folders, and for changes that the system refuses.
-/

namespace MarkdownTree.Files

/-- Why an operation on files fails. -/
inductive Reason where
  | notFound
  | exists
  | notAFolder
  | isAFolder
  /-- Any other reason of the system: a change that is not permitted, a disk that is full. -/
  | refused (number : Nat) (message : String)
  deriving DecidableEq

namespace Reason

def number : Reason → Nat
  | .notFound => 2
  | .exists => 17
  | .notAFolder => 20
  | .isAFolder => 21
  | .refused number _ => number

def message : Reason → String
  | .notFound => "No such file or directory"
  | .exists => "File exists"
  | .notAFolder => "Not a directory"
  | .isAFolder => "Is a directory"
  | .refused _ message => message

end Reason

/-- A failed operation on the file or folder of a path. -/
structure Fault where
  reason : Reason
  path : Path
  deriving DecidableEq

def Fault.message (e : Fault) : String :=
  "[Errno " ++ toString e.reason.number ++ "] " ++ e.reason.message ++ ": " ++
    Text.quoted e.path.text

/-- Names of folders from the root on, and of what lies in the last of them. -/
abbrev Place := List String

inductive Entry where
  | file (text : String)
  | folder
  deriving DecidableEq

inductive Change where
  | write (place : Place) (text : String)
  | remove (place : Place)
  | makeFolder (place : Place)

/-- The files and folders that there are, and what may be done with them. -/
structure Store where
  entries : List (Place × Entry)
  /-- The folder that paths without a root start from. -/
  working : Place
  /-- Why the system refuses a change; most are not refused. -/
  refuse : Change → Option Reason
  deriving Inhabited

namespace Store

/-- Nothing lies in the root, which is the working folder, and nothing is refused. -/
def empty : Store := ⟨[], [], fun _ => none⟩

/-- What there is in a place. The root and the working folder are always there. -/
def entry? (s : Store) (place : Place) : Option Entry :=
  if place = [] ∨ place = s.working then some .folder else s.entries.lookup place

def put (s : Store) (place : Place) (e : Entry) : Store :=
  { s with entries := (place, e) :: s.entries.filter (·.1 != place) }

def erase (s : Store) (place : Place) : Store :=
  { s with entries := s.entries.filter (·.1 != place) }

/-- The place that names lead to from a folder. All but the last name must lead to folders; the root
lies in itself. -/
def follow (s : Store) (place : Place) : List String → Except Reason Place
  | [] => .ok place
  | name :: rest =>
    match s.entry? place with
    | none => .error .notFound
    | some (.file _) => .error .notAFolder
    | some .folder =>
      follow s (if name = ".." then place.dropLast else place ++ [name]) rest

def start (s : Store) (p : Path) : Place :=
  if p.root = "" then s.working else []

def locate (s : Store) (p : Path) : Except Fault Place :=
  (s.follow (s.start p) p.parts).mapError (⟨·, p⟩)

def at? (s : Store) (p : Path) : Option Entry :=
  match s.locate p with
  | .ok place => s.entry? place
  | .error _ => none

def isFolder (s : Store) (p : Path) : Bool :=
  s.at? p = some .folder

def read (s : Store) (p : Path) : Except Fault String :=
  match s.locate p with
  | .error e => .error e
  | .ok place => match s.entry? place with
    | some (.file text) => .ok text
    | some .folder => .error ⟨.isAFolder, p⟩
    | none => .error ⟨.notFound, p⟩

def changed (s : Store) : Change → Store
  | .write place text => s.put place (.file text)
  | .remove place => s.erase place
  | .makeFolder place => s.put place .folder

/-- Makes a change that was asked for through a path. If it is refused, nothing is changed. -/
def change (s : Store) (p : Path) (c : Change) : Except Fault Store :=
  match s.refuse c with
  | some reason => .error ⟨reason, p⟩
  | none => .ok (s.changed c)

def write (s : Store) (p : Path) (text : String) : Except Fault Store :=
  match s.locate p with
  | .error e => .error e
  | .ok place => match s.entry? place with
    | some .folder => .error ⟨.isAFolder, p⟩
    | _ => s.change p (.write place text)

def remove (s : Store) (p : Path) : Except Fault Store :=
  match s.locate p with
  | .error e => .error e
  | .ok place => match s.entry? place with
    | some (.file _) => s.change p (.remove place)
    | some .folder => .error ⟨.isAFolder, p⟩
    | none => .error ⟨.notFound, p⟩

def makeFolder (s : Store) (p : Path) : Except Fault Store :=
  match s.locate p with
  | .error e => .error e
  | .ok place => match s.entry? place with
    | none => s.change p (.makeFolder place)
    | some _ => .error ⟨.exists, p⟩

def ensureFolder (s : Store) (p : Path) : Except Fault Store :=
  match s.makeFolder p with
  | .ok s => .ok s
  | .error e => if s.isFolder p then .ok s else .error e

/-- Makes a folder unless it is there, and those that it lies in. The path is given by its root and
its names, the last one first. -/
def ensureFoldersFrom (s : Store) (root : String) : List String → Except Fault Store
  | [] => s.ensureFolder ⟨root, []⟩
  | name :: outer =>
    let p : Path := ⟨root, (name :: outer).reverse⟩
    match s.ensureFolder p with
    | .ok s => .ok s
    | .error e =>
      if e.reason = .notFound then
        match ensureFoldersFrom s root outer with
        | .ok s => s.ensureFolder p
        | .error e => .error e
      else
        .error e

/-- Makes a folder unless it is there, and those that it lies in. -/
def ensureFolders (s : Store) (p : Path) : Except Fault Store :=
  s.ensureFoldersFrom p.root p.parts.reverse

/-- Writes a file, and makes the folders that it lies in. -/
def writeBelow (s : Store) (p : Path) (text : String) : Except Fault Store :=
  match s.ensureFolders p.parent with
  | .error e => .error e
  | .ok s => s.write p text

end Store

end MarkdownTree.Files
