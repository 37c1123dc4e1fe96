import MarkdownTree.Log.Message

/-!
The hierarchy of loggers. A logger is known by its name; a dot in the name separates it from that of
its ancestors, and the root is above all. Messages are printed by each printing logger on the way
up, as far as loggers report to their ancestors. A logger without a level has that of its nearest
ancestor with one.
-/

namespace MarkdownTree.Log

structure Logger where
  name : String
  level : Level
  /-- Whether it prints the messages that reach it. -/
  prints : Bool
  /-- Whether messages go on to its ancestors. -/
  reports : Bool
  deriving DecidableEq, Inhabited

/-- The loggers below the root, in the order in which they were made, and the root. -/
structure Hierarchy where
  root : Logger
  loggers : List Logger
  deriving Inhabited

namespace Hierarchy

def rootName : String := "root"

def packageName : String := "doctree"

/-- The loggers that are there from the start: those of the library pass their messages to one
logger that prints them and does not report them further. -/
def initial : Hierarchy where
  root := ⟨rootName, .number 30, false, true⟩
  loggers := [
    ⟨packageName, .number 20, true, false⟩,
    ⟨packageName ++ ".markdown.tabs", .number 0, false, true⟩]

def isRootName (name : String) : Bool :=
  name == "" || name == rootName

def find? (h : Hierarchy) (name : String) : Option Logger :=
  h.loggers.find? (·.name == name)

def madeBefore (h : Hierarchy) (first second : String) : Bool :=
  (h.loggers.takeWhile (·.name != second)).any (·.name == first)

/-- Whether a later logger of this name takes the root's place as parent. A name that begins the
root's own name does not. -/
def displacesRoot (name : String) : Bool :=
  !(name.toList.isPrefixOf rootName.toList)

/-- The logger of a name, if it is an ancestor of the logger `below`. -/
def visible? (h : Hierarchy) (below name : String) : Option Logger :=
  match h.find? name with
  | some l => if displacesRoot name || h.madeBefore name below then some l else none
  | none => none

/-- The ancestors of a logger below the root, the nearest first; the second argument is what is left
of the name, read backwards. After a dot that no ancestor's name ends at, the next character is
passed over, even if it is a dot. -/
def ancestorsFrom (h : Hierarchy) (below : String) : List Char → List Logger
  | '.' :: c :: rest =>
    match h.visible? below (String.ofList (c :: rest).reverse) with
    | some l => l :: ancestorsFrom h l.name (c :: rest)
    | none => ancestorsFrom h below rest
  | _ :: rest => ancestorsFrom h below rest
  | [] => []

/-- The ancestors of a logger, the nearest first and the root last. -/
def ancestors (h : Hierarchy) (name : String) : List Logger :=
  if isRootName name then [] else h.ancestorsFrom name name.toList.reverse ++ [h.root]

/-- The logger of a name; one that was not made yet has no level and does not print. -/
def get (h : Hierarchy) (name : String) : Logger :=
  if isRootName name then h.root else (h.find? name).getD ⟨name, .number 0, false, true⟩

def chain (h : Hierarchy) (name : String) : List Logger :=
  h.get name :: h.ancestors name

/-- The start of a chain, up to the first logger that does not report to its ancestors. -/
def reporting : List Logger → List Logger
  | [] => []
  | l :: rest => if l.reports then l :: reporting rest else [l]

def printers (h : Hierarchy) (name : String) : List Logger :=
  (reporting (h.chain name)).filter (·.prints)

/-- The level that counts for a logger: its own, or that of the nearest ancestor with one. -/
def effectiveLevel (h : Hierarchy) (name : String) : Int :=
  match (h.chain name).find? (·.level.weight != 0) with
  | some l => l.level.weight
  | none => 0

def enabled (h : Hierarchy) (name : String) (severity : Severity) : Bool :=
  h.effectiveLevel name ≤ severity.number

def copies (h : Hierarchy) (name : String) (severity : Severity) : Nat :=
  if h.enabled name severity then (h.printers name).length else 0

def modify (h : Hierarchy) (name : String) (change : Logger → Logger) : Hierarchy :=
  if isRootName name then { h with root := change h.root }
  else { h with loggers := h.loggers.map fun l => if l.name == name then change l else l }

def setLevel (h : Hierarchy) (name : String) (level : Level) : Hierarchy :=
  h.modify name fun l => { l with level := level }

def add (h : Hierarchy) (name : String) : Hierarchy :=
  if isRootName name || (h.find? name).isSome then h
  else { h with loggers := h.loggers ++ [⟨name, .number 0, false, true⟩] }

/-- Makes the logger of a name print what is logged under it: if neither it nor an ancestor does so
yet, it prints from now on, at the level of an information. -/
def openConsole (h : Hierarchy) (name : String) : Hierarchy :=
  let h := h.add name
  if (h.printers name).isEmpty then
    h.modify name fun l => { l with prints := true, level := .number Severity.info.number }
  else
    h

end Hierarchy

end MarkdownTree.Log
